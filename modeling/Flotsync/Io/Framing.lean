import Flotsync.Lib.Subslice

/-!
The bounded collector of delimiter-terminated frames. Each pushed chunk is appended up to
the limit, and the delimiter is searched from `delimiter.len() - 1` bytes before the old end
of the buffer, since no delimiter lies wholly in bytes already searched. That search finds
the first delimiter of the whole buffer, so the outcome of feeding a stream depends only on
where its first delimiter ends and on the limit, not on how the stream is cut into chunks.
-/

set_option autoImplicit false

namespace Flotsync.Io

open List Subslice

inductive CollectUntil
  | needMore
  | complete (frame : List UInt8) (trailingOffset : ℕ)
  | limitExceeded
  deriving DecidableEq, Repr

structure BoundedCollector where
  buffer : List UInt8
  limit : ℕ
  deriving DecidableEq, Repr

namespace BoundedCollector

def new (limit : ℕ) : BoundedCollector := ⟨[],limit⟩

def clear (self : BoundedCollector) : BoundedCollector := { self with buffer := [] }

def buffered (self : BoundedCollector) : List UInt8 := self.buffer

end BoundedCollector

def findSubslice (haystack needle : List UInt8) : Option ℕ :=
  (windows needle.length haystack).findIdx? (· == needle)

/-- `push_until`; `none` where it panics, on an empty delimiter. -/
def BoundedCollector.pushUntil (self : BoundedCollector) (chunk delimiter : List UInt8) :
    Option (CollectUntil × BoundedCollector) :=
  if delimiter.isEmpty then none
  else
    let bufferedBefore := self.buffer.length
    let searchStart := bufferedBefore - (delimiter.length - 1)
    let appendable := min chunk.length (self.limit - bufferedBefore)
    let buffer := self.buffer ++ chunk.take appendable
    match findSubslice (buffer.drop searchStart) delimiter with
    | some relativeIndex =>
      let frameEnd := searchStart + relativeIndex + delimiter.length
      let buffer := buffer.take frameEnd
      some (.complete (buffer.take frameEnd) (frameEnd - bufferedBefore),{ self with buffer })
    | none =>
      if appendable < chunk.length then some (.limitExceeded,{ self with buffer })
      else some (.needMore,{ self with buffer })

/-- A caller that feeds `chunks` in order until a result other than `NeedMore`: each call's
result with the bytes buffered after it. -/
def feedUntilDone (delimiter : List UInt8) (collector : BoundedCollector) :
    List (List UInt8) → List (CollectUntil × List UInt8)
  | [] => []
  | chunk :: rest =>
    match collector.pushUntil chunk delimiter with
    | none => []
    | some (result,collector') =>
      (result,collector'.buffered) :: match result with
        | .needMore => feedUntilDone delimiter collector' rest
        | _ => []

/-- The calls that needed more, from a collector holding `B`: each holds what it consumed. -/
def needMoreTrace (B : List UInt8) (chunks : List (List UInt8)) (j : ℕ) :
    List (CollectUntil × List UInt8) :=
  (range j).map fun k => (.needMore,B ++ (chunks.take (k + 1)).flatten)

theorem needMoreTrace_succ (B x : List UInt8) (rest : List (List UInt8)) (j : ℕ) :
    needMoreTrace B (x :: rest) (j + 1) = (.needMore,B ++ x) :: needMoreTrace (B ++ x) rest j := by
  simp [needMoreTrace,range_succ_eq_map,Function.comp_def]

/-! ### One push -/

section Push

variable {d B : List UInt8} {L : ℕ}

theorem findSubslice_eq_none (hd : d ≠ []) {h : List UInt8} : findSubslice h d = none ↔ ¬ d <:+: h := by
  rw [findSubslice,findIdx?_windows_eq_none hd,infix_iff_exists_startsAt]
  simp

/-- Searching what the collector holds, a prefix of the stream, finds the stream's first
delimiter exactly when it ends within that prefix. -/
theorem findSubslice_take (hd : d ≠ []) {s : List UInt8} {m i : ℕ} :
    findSubslice (s.take m) d = some i ↔ findSubslice s d = some i ∧ i + d.length ≤ m :=
  findIdx?_windows_take_eq_some hd

/-- No delimiter starts where it would end within a buffer that holds none. -/
theorem not_startsAt_of_add_le (hd : d ≠ []) (hB : ¬ d <:+: B) {x : List UInt8} {j : ℕ}
    (hj : j + d.length ≤ B.length) : ¬ StartsAt d (B ++ x) j := by
  intro hs
  have hin : StartsAt d ((B ++ x).take B.length) j := (startsAt_take_iff hd).2 ⟨hs,hj⟩
  rw [take_left' rfl] at hin
  exact hB (infix_iff_exists_startsAt.2 ⟨j,hin⟩)

/-- Nothing starts before `searchStart` when the old buffer holds no delimiter. -/
theorem not_startsAt_of_lt_searchStart (hd : d ≠ []) (hB : ¬ d <:+: B) {x : List UInt8} {j : ℕ}
    (hj : j < B.length - (d.length - 1)) : ¬ StartsAt d (B ++ x) j :=
  not_startsAt_of_add_le hd hB (by have := length_pos_of_ne_nil hd; omega)

/-- The search from `searchStart` finds the first delimiter of the whole buffer. -/
theorem findSubslice_drop_searchStart (hd : d ≠ []) (hB : ¬ d <:+: B) (x : List UInt8) :
    findSubslice ((B ++ x).drop (B.length - (d.length - 1))) d =
      (findSubslice (B ++ x) d).map (· - (B.length - (d.length - 1))) :=
  findIdx?_windows_drop hd fun _ hj => not_startsAt_of_lt_searchStart hd hB hj

theorem searchStart_le (hd : d ≠ []) (hB : ¬ d <:+: B) {x : List UInt8} {i : ℕ}
    (hf : findSubslice (B ++ x) d = some i) : B.length - (d.length - 1) ≤ i :=
  not_lt.1 fun hlt => not_startsAt_of_lt_searchStart hd hB hlt ((findIdx?_windows_eq_some hd).1 hf).1

/-- A push into a collector whose buffer holds no delimiter, as a search of the whole
buffer after the cut at the limit. -/
theorem pushUntil_eq (hd : d ≠ []) (hB : ¬ d <:+: B) (chunk : List UInt8) :
    (⟨B,L⟩ : BoundedCollector).pushUntil chunk d =
      some (match findSubslice (B ++ chunk.take (L - B.length)) d with
        | some i => (.complete ((B ++ chunk.take (L - B.length)).take (i + d.length))
            (i + d.length - B.length),⟨(B ++ chunk.take (L - B.length)).take (i + d.length),L⟩)
        | none => (if L - B.length < chunk.length then .limitExceeded else .needMore,
            ⟨B ++ chunk.take (L - B.length),L⟩)) := by
  have htake : chunk.take (min chunk.length (L - B.length)) = chunk.take (L - B.length) := by
    rcases le_total chunk.length (L - B.length) with h | h
    · rw [min_eq_left h,take_length,take_of_length_le h]
    · rw [min_eq_right h]
  have hne : d.isEmpty = false := isEmpty_eq_false_iff.2 hd
  simp only [BoundedCollector.pushUntil,hne,Bool.false_eq_true,if_false,htake]
  rw [findSubslice_drop_searchStart hd hB]
  cases hf : findSubslice (B ++ chunk.take (L - B.length)) d with
  | none => by_cases hlt : L - B.length < chunk.length <;> simp [hlt]
  | some i =>
    -- the relative index is measured from the search start, which the match is not before
    have hle := searchStart_le hd hB hf
    simp only [Option.map_some,take_take,min_self]
    rw [Nat.add_sub_cancel' hle]

end Push

/-! ### Feeding a stream -/

section Feed

variable {d : List UInt8} {L : ℕ}

/-- What the collector holds after a push is a prefix of the stream. -/
theorem prefix_push (B x : List UInt8) (rest : List (List UInt8)) (m : ℕ) :
    B ++ x.take m <+: B ++ (x :: rest).flatten := by
  rw [flatten_cons]
  exact (prefix_append_right_inj B).2 (IsPrefix.trans ⟨_,take_append_drop m x⟩ (prefix_append x _))

/-- A first delimiter of the stream ends after a buffer that holds none. -/
theorem length_lt_of_findSubslice (hd : d ≠ []) {B s : List UInt8} {i : ℕ} (hB : ¬ d <:+: B)
    (hf : findSubslice (B ++ s) d = some i) : B.length < i + d.length :=
  not_le.1 fun hle => not_startsAt_of_add_le hd hB hle ((findIdx?_windows_eq_some hd).1 hf).1

/-- A chunk that fits below the limit and completes no delimiter is taken whole, and the
collector then holds no delimiter. -/
theorem findSubslice_push_eq_none (hd : d ≠ []) {B x : List UInt8} {rest : List (List UInt8)}
    (hL : ∀ i, findSubslice (B ++ (x :: rest).flatten) d = some i → (B ++ x).length < i + d.length) :
    findSubslice (B ++ x) d = none := by
  rcases hcase : findSubslice (B ++ x) d with _ | i
  · rfl
  · have hpre : B ++ x <+: B ++ (x :: rest).flatten := by simp
    rw [prefix_iff_eq_take.1 hpre,findSubslice_take hd] at hcase
    exact absurd hcase.2 (not_le.2 (hL i hcase.1))

/-- A chunk that fits below the limit and completes no delimiter is buffered whole, and the
caller feeds on. -/
theorem feedUntilDone_cons_of_fit (hd : d ≠ []) {B x : List UInt8} {rest : List (List UInt8)}
    (hB : ¬ d <:+: B) (hfit : x.length ≤ L - B.length) (hfA : findSubslice (B ++ x) d = none) :
    feedUntilDone d ⟨B,L⟩ (x :: rest) = (.needMore,B ++ x) :: feedUntilDone d ⟨B ++ x,L⟩ rest := by
  rw [feedUntilDone,pushUntil_eq hd hB,take_of_length_le hfit,hfA]
  simp [not_lt.2 hfit,BoundedCollector.buffered]

theorem feedUntilDone_of_frame (hd : d ≠ []) {i : ℕ} :
    ∀ (cs : List (List UInt8)) (B : List UInt8), ¬ d <:+: B → B.length ≤ L →
      findSubslice (B ++ cs.flatten) d = some i → i + d.length ≤ L →
      ∃ j < cs.length,
        feedUntilDone d ⟨B,L⟩ cs = needMoreTrace B cs j ++
          [(.complete ((B ++ cs.flatten).take (i + d.length))
            (i + d.length - (B ++ (cs.take j).flatten).length),(B ++ cs.flatten).take (i + d.length))] ∧
        (B ++ (cs.take j).flatten).length < i + d.length ∧
        i + d.length ≤ (B ++ (cs.take (j + 1)).flatten).length
  | [], B, hB, _, hf, _ => by
    simp only [flatten_nil,append_nil] at hf
    exact absurd (infix_iff_exists_startsAt.2 ⟨i,((findIdx?_windows_eq_some hd).1 hf).1⟩) hB
  | x :: rest, B, hB, hBL, hf, hL => by
    have hpre := prefix_push B x rest (L - B.length)
    have hafter := length_lt_of_findSubslice hd hB hf
    by_cases hend : i + d.length ≤ (B ++ x.take (L - B.length)).length
    · -- the delimiter ends in this chunk
      have hfA : findSubslice (B ++ x.take (L - B.length)) d = some i := by
        rw [prefix_iff_eq_take.1 hpre,findSubslice_take hd]
        exact ⟨hf,hend⟩
      have hframe : (B ++ x.take (L - B.length)).take (i + d.length) =
          (B ++ (x :: rest).flatten).take (i + d.length) := by
        conv_lhs => rw [prefix_iff_eq_take.1 hpre,take_take,min_eq_left hend]
      refine ⟨0,by simp,?_,by simpa using hafter,?_⟩
      · rw [feedUntilDone,pushUntil_eq hd hB,hfA]
        simp [needMoreTrace,BoundedCollector.buffered,hframe]
      · simp only [length_append,length_take] at hend
        simp
        omega
    · -- the chunk fits below the limit and completes nothing
      have hfit : x.length ≤ L - B.length := by
        simp only [length_append,length_take] at hend
        omega
      have hx : x.take (L - B.length) = x := take_of_length_le hfit
      have hfA : findSubslice (B ++ x) d = none :=
        findSubslice_push_eq_none hd fun i' hi' => by
          rw [hf] at hi'
          cases hi'
          rw [hx] at hend
          omega
      obtain ⟨j,hj,htrace,h₁,h₂⟩ := feedUntilDone_of_frame hd rest (B ++ x)
        ((findSubslice_eq_none hd).1 hfA) (by simp only [length_append]; omega) (by simpa using hf) hL
      refine ⟨j + 1,by simpa using hj,?_,by simpa using h₁,by simpa using h₂⟩
      rw [feedUntilDone_cons_of_fit hd hB hfit hfA,htrace,needMoreTrace_succ]
      simp

/-- The collector's own test: a delimiter split across two chunks. -/
example : feedUntilDone [13,10,13,10] (BoundedCollector.new 32)
    [[104,101,108,108,111,13,10],[13,10,114,101,115,116]] =
      [(.needMore,[104,101,108,108,111,13,10]),
        (.complete [104,101,108,108,111,13,10,13,10] 2,[104,101,108,108,111,13,10,13,10])] := by
  decide +kernel

theorem feedUntilDone_of_limit (hd : d ≠ []) :
    ∀ (cs : List (List UInt8)) (B : List UInt8), ¬ d <:+: B → B.length ≤ L →
      (∀ i, findSubslice (B ++ cs.flatten) d = some i → L < i + d.length) →
      L < (B ++ cs.flatten).length →
      ∃ j < cs.length,
        feedUntilDone d ⟨B,L⟩ cs = needMoreTrace B cs j ++ [(.limitExceeded,(B ++ cs.flatten).take L)] ∧
        (B ++ (cs.take j).flatten).length ≤ L ∧ L < (B ++ (cs.take (j + 1)).flatten).length
  | [], B, _, hBL, _, hlt => by
    simp only [flatten_nil,append_nil] at hlt
    omega
  | x :: rest, B, hB, hBL, hL, hlt => by
    have hpre := prefix_push B x rest (L - B.length)
    -- no delimiter ends within the limit, so the push completes none
    have hfA : findSubslice (B ++ x.take (L - B.length)) d = none := by
      rcases hcase : findSubslice (B ++ x.take (L - B.length)) d with _ | i
      · rfl
      · rw [prefix_iff_eq_take.1 hpre,findSubslice_take hd] at hcase
        have := hL i hcase.1
        have := hcase.2
        simp only [length_append,length_take] at this
        omega
    by_cases hcut : L - B.length < x.length
    · -- the byte after the limit arrives in this chunk
      have hA : B ++ x.take (L - B.length) = (B ++ (x :: rest).flatten).take L := by
        rw [prefix_iff_eq_take.1 hpre]
        congr 1
        simp only [length_append,length_take]
        omega
      refine ⟨0,by simp,?_,by simpa using hBL,by simp; omega⟩
      rw [feedUntilDone,pushUntil_eq hd hB,hfA]
      simp [hcut,needMoreTrace,BoundedCollector.buffered,hA]
    · have hfit : x.length ≤ L - B.length := not_lt.1 hcut
      have hx : x.take (L - B.length) = x := take_of_length_le hfit
      rw [hx] at hfA
      obtain ⟨j,hj,htrace,h₁,h₂⟩ := feedUntilDone_of_limit hd rest (B ++ x)
        ((findSubslice_eq_none hd).1 hfA) (by simp only [length_append]; omega) (by simpa using hL)
        (by simpa using hlt)
      refine ⟨j + 1,by simpa using hj,?_,by simpa using h₁,by simpa using h₂⟩
      rw [feedUntilDone_cons_of_fit hd hB hfit hfA,htrace,needMoreTrace_succ]
      simp

/-- The collector's own test: a chunk beyond the limit is cut at it. -/
example : feedUntilDone [13,10] (BoundedCollector.new 4) [[97,98,99,100,101,102]] =
    [(.limitExceeded,[97,98,99,100])] := by
  decide +kernel

theorem feedUntilDone_of_no_frame (hd : d ≠ []) :
    ∀ (cs : List (List UInt8)) (B : List UInt8), ¬ d <:+: B →
      (∀ i, findSubslice (B ++ cs.flatten) d = some i → L < i + d.length) →
      (B ++ cs.flatten).length ≤ L →
      feedUntilDone d ⟨B,L⟩ cs = needMoreTrace B cs cs.length
  | [], _, _, _, _ => rfl
  | x :: rest, B, hB, hL, hle => by
    have hfit : x.length ≤ L - B.length := by
      simp only [flatten_cons,length_append] at hle
      omega
    have hfA : findSubslice (B ++ x) d = none := findSubslice_push_eq_none hd fun i hi => by
      have := hL i hi
      simp only [flatten_cons,length_append] at hle ⊢
      omega
    rw [feedUntilDone_cons_of_fit hd hB hfit hfA,length_cons,needMoreTrace_succ,cons.injEq]
    exact ⟨rfl,feedUntilDone_of_no_frame hd rest (B ++ x) ((findSubslice_eq_none hd).1 hfA)
      (by simpa using hL) (by simpa using hle)⟩

/-- No call leaves more than the limit buffered. -/
theorem length_le_of_mem_feedUntilDone (hd : d ≠ []) :
    ∀ (cs : List (List UInt8)) (B : List UInt8), ¬ d <:+: B → B.length ≤ L →
      ∀ e ∈ feedUntilDone d ⟨B,L⟩ cs, e.2.length ≤ L
  | [], _, _, _ => by simp [feedUntilDone]
  | x :: rest, B, hB, hBL => by
    have hA : (B ++ x.take (L - B.length)).length ≤ L := by
      simp only [length_append,length_take]
      omega
    rw [feedUntilDone,pushUntil_eq hd hB]
    cases hf : findSubslice (B ++ x.take (L - B.length)) d with
    | some i =>
      simp only [BoundedCollector.buffered,mem_singleton,forall_eq,length_take]
      exact (min_le_right _ _).trans hA
    | none =>
      by_cases hcut : L - B.length < x.length
      · simpa [hcut,BoundedCollector.buffered] using hA
      · -- the chunk was taken whole: go on from there
        have hx : x.take (L - B.length) = x := take_of_length_le (not_lt.1 hcut)
        rw [hx] at hA hf ⊢
        simp only [hcut,if_false,BoundedCollector.buffered,mem_cons,forall_eq_or_imp]
        exact ⟨hA,length_le_of_mem_feedUntilDone hd rest (B ++ x) ((findSubslice_eq_none hd).1 hf) hA⟩

theorem flatten_take_add_one {cs : List (List UInt8)} {j : ℕ} (hj : j < cs.length) :
    (cs.take (j + 1)).flatten = (cs.take j).flatten ++ cs[j] := by
  rw [take_add_one,getElem?_eq_getElem hj,flatten_append]
  simp

/-- The bytes of a chunk from an offset on are those of the stream from there to the chunk's end. -/
theorem drop_getElem_eq {cs : List (List UInt8)} {j m : ℕ} (hj : j < cs.length)
    (h₁ : (cs.take j).flatten.length ≤ m) (h₂ : m ≤ (cs.take (j + 1)).flatten.length) :
    cs[j].drop (m - (cs.take j).flatten.length) =
      (cs.flatten.drop m).take ((cs.take (j + 1)).flatten.length - m) := by
  have hsplit : cs.flatten = (cs.take j).flatten ++ (cs[j] ++ (cs.drop (j + 1)).flatten) := by
    rw [← append_assoc,← flatten_take_add_one hj,← flatten_append,take_append_drop]
  rw [flatten_take_add_one hj,length_append] at h₂ ⊢
  rw [hsplit,drop_append,drop_eq_nil_of_le h₁,nil_append,drop_append_of_le_length (by omega)]
  rw [take_left' (by rw [length_drop]; omega)]

end Feed

/-! ### Chunking independence -/

theorem bounded_collector_is_chunking_independent {d : List UInt8} (hd : d ≠ []) (L : ℕ)
    (cs : List (List UInt8)) :
    (∀ e ∈ feedUntilDone d (BoundedCollector.new L) cs, e.2.length ≤ L) ∧
    (∀ p, ShortestPrefixEndingWith d cs.flatten p → p.length ≤ L →
      ∃ j, ∃ hj : j < cs.length,
        feedUntilDone d (BoundedCollector.new L) cs =
          (range j).map (fun k => (.needMore,(cs.take (k + 1)).flatten)) ++
            [(.complete p (p.length - (cs.take j).flatten.length),p)] ∧
        (cs.take j).flatten.length < p.length ∧ p.length ≤ (cs.take (j + 1)).flatten.length ∧
        cs[j].drop (p.length - (cs.take j).flatten.length) =
          (cs.flatten.drop p.length).take ((cs.take (j + 1)).flatten.length - p.length)) ∧
    ((∀ p, ShortestPrefixEndingWith d cs.flatten p → L < p.length) → L < cs.flatten.length →
      ∃ j < cs.length,
        feedUntilDone d (BoundedCollector.new L) cs =
          (range j).map (fun k => (.needMore,(cs.take (k + 1)).flatten)) ++
            [(.limitExceeded,cs.flatten.take L)] ∧
        (cs.take j).flatten.length ≤ L ∧ L < (cs.take (j + 1)).flatten.length) ∧
    ((∀ p, ShortestPrefixEndingWith d cs.flatten p → L < p.length) → cs.flatten.length ≤ L →
      feedUntilDone d (BoundedCollector.new L) cs =
        (range cs.length).map fun k => (.needMore,(cs.take (k + 1)).flatten)) := by
  have hempty : ¬ d <:+: [] := fun h => hd (eq_nil_of_infix_nil h)
  have htrace : ∀ j, needMoreTrace [] cs j = (range j).map fun k => (.needMore,(cs.take (k + 1)).flatten) :=
    fun j => by simp [needMoreTrace]
  -- the shortest prefix ending with the delimiter ends where the first search result does
  have hshort : ∀ i, findSubslice cs.flatten d = some i →
      ShortestPrefixEndingWith d cs.flatten (cs.flatten.take (i + d.length)) ∧
        (cs.flatten.take (i + d.length)).length = i + d.length := fun i hi =>
    ⟨(shortestPrefixEndingWith_iff hd).2 ⟨i,hi,rfl⟩,
      length_take_of_le (((findIdx?_windows_eq_some hd).1 hi).1.add_length_le hd)⟩
  have hnone : (∀ p, ShortestPrefixEndingWith d cs.flatten p → L < p.length) →
      ∀ i, findSubslice ([] ++ cs.flatten) d = some i → L < i + d.length := fun h i hi => by
    rw [nil_append] at hi
    rw [← (hshort i hi).2]
    exact h _ (hshort i hi).1
  refine ⟨length_le_of_mem_feedUntilDone hd cs [] hempty (Nat.zero_le _),?_,?_,?_⟩
  · intro p hp hpL
    obtain ⟨i,hi,rfl⟩ := (shortestPrefixEndingWith_iff hd).1 hp
    rw [(hshort i hi).2] at hpL ⊢
    obtain ⟨j,hj,heq,h₁,h₂⟩ := feedUntilDone_of_frame hd cs [] hempty (Nat.zero_le _) (by rw [nil_append]; exact hi) hpL
    simp only [nil_append] at heq h₁ h₂
    exact ⟨j,hj,by rw [← htrace]; exact heq,h₁,h₂,drop_getElem_eq hj h₁.le h₂⟩
  · intro h hlt
    obtain ⟨j,hj,heq,h₁,h₂⟩ := feedUntilDone_of_limit hd cs [] hempty (Nat.zero_le _) (hnone h)
      (by simpa using hlt)
    simp only [nil_append] at heq h₁ h₂
    exact ⟨j,hj,by rw [← htrace]; exact heq,h₁,h₂⟩
  · intro h hle
    rw [← htrace]
    exact feedUntilDone_of_no_frame hd cs [] hempty (hnone h) (by simpa using hle)

/-- The bound at the collector's own test input. -/
theorem bounded_collector_is_chunking_independent_http_head :
    [13,10,13,10] ≠ ([] : List UInt8) ∧
      ∀ e ∈ feedUntilDone [13,10,13,10] (BoundedCollector.new 32)
        [[104,101,108,108,111,13,10],[13,10,114,101,115,116]], e.2.length ≤ 32 :=
  ⟨by decide,(bounded_collector_is_chunking_independent (by decide) 32 _).1⟩

end Flotsync.Io
