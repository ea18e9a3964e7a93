import Mathlib

/-!
Hierarchical identifiers and their text form. `Display` joins the segments with
`.`; `FromStr` maps the empty text to the empty identifier and otherwise splits on
`.`, rejects more than `MAX_IDENTIFIER_SEGMENTS` parts, and pushes the parts one by
one, stopping at the first empty or illegal one. Segments are legal when they match
`^[a-zA-Z0-9:_-]+$`, so no segment holds the separator and the two directions are
inverse on valid identifiers and on accepted texts.
-/

set_option autoImplicit false

namespace Flotsync.Member

/-- `MAX_IDENTIFIER_SEGMENTS`, `u8::MAX`. -/
def maxIdentifierSegments : ℕ := 255

/-- `SEGMENT_SEPARATOR`. -/
def segmentSeparator : Char := '.'

/-- One character of the class `[a-zA-Z0-9:_-]`; `Char.isAlphanum` is ASCII only. -/
def legalChar (c : Char) : Bool :=
  c.isAlphanum || c == ':' || c == '_' || c == '-'

/-- `LEGAL_CHARS_PATTERN`, `^[a-zA-Z0-9:_-]+$`: a non-empty run of legal characters. -/
def containsOnlyLegalChars (s : String) : Bool :=
  !s.isEmpty && s.toList.all legalChar

/-- `str::split` on a one-character separator: the parts between separators, empty ones included. -/
def split (input : String) (separator : Char) : List String :=
  (input.toList.splitOn separator).map String.ofList

inductive IdentifierError
  | illegalCharactersError (segment : String)
  | tooManySegmentsError (actual : ℕ)
  deriving DecidableEq, Repr

inductive IdentifierParseError
  | parseEmptySegmentError (input : String)
  | parseTooManySegmentsError (input : String) (actual : ℕ)
  | invalidSegment (input segment : String) (source : IdentifierError)
  deriving DecidableEq, Repr

structure Identifier where
  segments : List String
  deriving DecidableEq, Repr

structure IdentifierBuf where
  segments : List String
  deriving DecidableEq, Repr

/-- `IdentifierBuf::EMPTY` and `IdentifierBuf::new`. -/
def IdentifierBuf.empty : IdentifierBuf := ⟨[]⟩

def IdentifierBuf.intoIdentifier (self : IdentifierBuf) : Identifier := ⟨self.segments⟩

/-- `Display`: the segments joined by the separator. -/
def Identifier.toString (self : Identifier) : String :=
  String.intercalate (String.singleton segmentSeparator) self.segments

instance : ToString Identifier := ⟨Identifier.toString⟩

def ensureCanPushSegment (currentLen : ℕ) : Except IdentifierError Unit :=
  if currentLen < maxIdentifierSegments then .ok () else .error (.tooManySegmentsError (currentLen + 1))

def checkThatContainsOnlyLegalChars (s : String) : Except IdentifierError Unit :=
  if containsOnlyLegalChars s then .ok () else .error (.illegalCharactersError s)

def IdentifierBuf.pushChecked (self : IdentifierBuf) (segment : String) :
    Except IdentifierError IdentifierBuf := do
  ensureCanPushSegment self.segments.length
  checkThatContainsOnlyLegalChars segment
  return ⟨self.segments ++ [segment]⟩

/-- One turn of the loop in `from_str`. -/
def IdentifierBuf.parseSegment (input : String) (buffer : IdentifierBuf) (segment : String) :
    Except IdentifierParseError IdentifierBuf :=
  if segment.isEmpty then .error (.parseEmptySegmentError input)
  else (buffer.pushChecked segment).mapError (.invalidSegment input segment)

def IdentifierBuf.fromStr (input : String) : Except IdentifierParseError IdentifierBuf :=
  if input.isEmpty then .ok .empty
  else
    let segments := split input segmentSeparator
    if segments.length > maxIdentifierSegments then
      .error (.parseTooManySegmentsError input segments.length)
    else segments.foldlM (IdentifierBuf.parseSegment input) .empty

def Identifier.fromStr (input : String) : Except IdentifierParseError Identifier :=
  (IdentifierBuf.fromStr input).map IdentifierBuf.intoIdentifier

/-- What the checked constructors guarantee: a count that fits a byte and legal segments. -/
def Identifier.Valid (id : Identifier) : Prop :=
  id.segments.length ≤ maxIdentifierSegments ∧ ∀ s ∈ id.segments, containsOnlyLegalChars s

instance (id : Identifier) : Decidable id.Valid := inferInstanceAs (Decidable (_ ∧ _))

/-- The error `from_str` reports for a rejected segment. -/
def segmentError (input segment : String) : IdentifierParseError :=
  if segment.isEmpty then .parseEmptySegmentError input
  else .invalidSegment input segment (.illegalCharactersError segment)

/-! ### Segments -/

theorem isEmpty_of_containsOnlyLegalChars {s : String} (h : containsOnlyLegalChars s) :
    s.isEmpty = false := by
  simp_all [containsOnlyLegalChars]

/-- The separator is not a legal character, so no legal segment contains it. -/
theorem not_mem_of_containsOnlyLegalChars {s : String} (h : containsOnlyLegalChars s) :
    segmentSeparator ∉ s.toList := by
  intro hmem
  simp only [containsOnlyLegalChars,Bool.and_eq_true,List.all_eq_true] at h
  exact absurd (h.2 _ hmem) (by decide)

theorem pushChecked_eq_ok {buffer : IdentifierBuf} {segment : String}
    (hlen : buffer.segments.length < maxIdentifierSegments) (hs : containsOnlyLegalChars segment) :
    buffer.pushChecked segment = .ok ⟨buffer.segments ++ [segment]⟩ := by
  rw [IdentifierBuf.pushChecked,ensureCanPushSegment,if_pos hlen,checkThatContainsOnlyLegalChars,if_pos hs]
  rfl

theorem pushChecked_eq_error {buffer : IdentifierBuf} {segment : String}
    (hlen : buffer.segments.length < maxIdentifierSegments) (hs : containsOnlyLegalChars segment = false) :
    buffer.pushChecked segment = .error (.illegalCharactersError segment) := by
  rw [IdentifierBuf.pushChecked,ensureCanPushSegment,if_pos hlen,checkThatContainsOnlyLegalChars,
    if_neg (by simp [hs])]
  rfl

/-- Below the count limit a segment is pushed exactly when it is legal, and otherwise it is
reported under its own text. -/
theorem parseSegment_eq {input segment : String} {buffer : IdentifierBuf}
    (hlen : buffer.segments.length < maxIdentifierSegments) :
    IdentifierBuf.parseSegment input buffer segment =
      if containsOnlyLegalChars segment then .ok ⟨buffer.segments ++ [segment]⟩
      else .error (segmentError input segment) := by
  unfold IdentifierBuf.parseSegment segmentError
  cases hs : containsOnlyLegalChars segment with
  | true =>
    rw [if_neg (by simp [isEmpty_of_containsOnlyLegalChars hs]),pushChecked_eq_ok hlen hs]
    rfl
  | false =>
    cases segment.isEmpty
    · rw [pushChecked_eq_error hlen hs]
      rfl
    · rfl

/-! ### The loop over the parts -/

section Loop

variable {input : String}

/-- Within the count limit the loop succeeds exactly when every part is legal, and then keeps
them all. -/
theorem foldlM_parseSegment_eq_ok_iff :
    ∀ {segments : List String} {buffer b : IdentifierBuf},
      buffer.segments.length + segments.length ≤ maxIdentifierSegments →
      (segments.foldlM (IdentifierBuf.parseSegment input) buffer = .ok b ↔
        (∀ s ∈ segments, containsOnlyLegalChars s) ∧ b = ⟨buffer.segments ++ segments⟩)
  | [], buffer, b, _ => by
    simp only [List.foldlM_nil,List.not_mem_nil,false_imp_iff,implies_true,List.append_nil,true_and]
    exact ⟨fun h => (Except.ok.inj h).symm,fun h => congrArg Except.ok h.symm⟩
  | s :: segments, buffer, b, hlen => by
    have hlt : buffer.segments.length < maxIdentifierSegments := by
      simp only [List.length_cons] at hlen
      omega
    rw [List.foldlM_cons,parseSegment_eq hlt]
    cases hs : containsOnlyLegalChars s with
    | false =>
      -- the head is rejected, so the loop ends in an error and not every part is legal
      exact ⟨fun h => (by cases h),fun ⟨hall,_⟩ => absurd (hall s List.mem_cons_self) (by simp [hs])⟩
    | true =>
      have ih := @foldlM_parseSegment_eq_ok_iff segments ⟨buffer.segments ++ [s]⟩ b
        (by simp only [List.length_append,List.length_cons,List.length_nil] at hlen ⊢; omega)
      simp only [if_true]
      exact ih.trans (by simp [hs])

/-- The loop stops at the first part that is not legal and reports it. -/
theorem foldlM_parseSegment_eq_error :
    ∀ {segments : List String} {buffer : IdentifierBuf} {e : IdentifierParseError},
      buffer.segments.length + segments.length ≤ maxIdentifierSegments →
      segments.foldlM (IdentifierBuf.parseSegment input) buffer = .error e →
      ∃ pre segment post, segments = pre ++ segment :: post ∧ (∀ s ∈ pre, containsOnlyLegalChars s) ∧
        containsOnlyLegalChars segment = false ∧ e = segmentError input segment
  | [], _, _, _, h => by simp at h; cases h
  | s :: segments, buffer, e, hlen, h => by
    have hlt : buffer.segments.length < maxIdentifierSegments := by
      simp only [List.length_cons] at hlen
      omega
    rw [List.foldlM_cons,parseSegment_eq hlt] at h
    cases hs : containsOnlyLegalChars s with
    | false =>
      -- the head itself is rejected
      rw [hs] at h
      cases h
      exact ⟨[],s,segments,rfl,by simp,hs,rfl⟩
    | true =>
      rw [hs,if_pos rfl] at h
      obtain ⟨pre,segment,post,rfl,hpre,hseg,rfl⟩ := foldlM_parseSegment_eq_error
        (by simp only [List.length_append,List.length_cons,List.length_nil] at hlen ⊢; omega) h
      exact ⟨s :: pre,segment,post,rfl,by simpa [hs] using hpre,hseg,rfl⟩

end Loop

/-! ### Splitting and joining -/

theorem split_ne_nil (input : String) (separator : Char) : split input separator ≠ [] := by
  simp [split,List.splitOn]

/-- Joining the parts of a text gives the text back. -/
theorem toString_split (input : String) :
    (Identifier.toString ⟨split input segmentSeparator⟩) = input := by
  rw [← String.toList_inj]
  simp [Identifier.toString,split,List.map_map,Function.comp_def,List.intercalate_splitOn]

/-- Splitting joined legal segments gives them back. -/
theorem split_toString {id : Identifier} (hs : ∀ s ∈ id.segments, containsOnlyLegalChars s)
    (hne : id.segments ≠ []) : split id.toString segmentSeparator = id.segments := by
  have hsep : ∀ l ∈ id.segments.map String.toList, segmentSeparator ∉ l := by
    simp only [List.mem_map]
    rintro _ ⟨s,hmem,rfl⟩
    exact not_mem_of_containsOnlyLegalChars (hs s hmem)
  simp only [split,Identifier.toString,String.toList_intercalate,String.toList_singleton]
  rw [List.splitOn_intercalate _ hsep (by simpa using hne)]
  simp [Function.comp_def]

theorem isEmpty_toString {id : Identifier} (hs : ∀ s ∈ id.segments, containsOnlyLegalChars s) :
    id.toString.isEmpty = id.segments.isEmpty := by
  rcases hnil : id.segments with _ | ⟨s,rest⟩
  · simp [Identifier.toString,hnil]
  · have hsep := split_toString hs (by simp [hnil])
    have hs' := isEmpty_of_containsOnlyLegalChars (hs s (by simp [hnil]))
    -- an empty text splits into the single empty part, which is not legal
    cases he : id.toString.isEmpty
    · rfl
    · rw [String.isEmpty_iff.1 he,hnil] at hsep
      simp [split] at hsep
      simp_all

/-! ### Parsing -/

theorem fromStr_empty : IdentifierBuf.fromStr "" = .ok .empty := rfl

/-- A non-empty text within the count limit parses exactly when all its parts are legal. -/
theorem fromStr_eq_ok_iff {input : String} {b : IdentifierBuf} :
    IdentifierBuf.fromStr input = .ok b ↔
      (input = "" ∧ b = .empty) ∨ (input ≠ "" ∧ (split input segmentSeparator).length ≤ maxIdentifierSegments ∧
        (∀ s ∈ split input segmentSeparator, containsOnlyLegalChars s) ∧ b = ⟨split input segmentSeparator⟩) := by
  unfold IdentifierBuf.fromStr
  by_cases hin : input = ""
  · subst hin
    simp only [String.isEmpty_iff,if_true,Except.ok.injEq,true_and,ne_eq,not_true_eq_false,false_and,or_false]
    exact eq_comm
  have he : input.isEmpty = false := by simpa [String.isEmpty_iff] using hin
  simp only [he,Bool.false_eq_true,if_false,hin,false_and,false_or,ne_eq,not_false_eq_true,true_and]
  by_cases hlen : (split input segmentSeparator).length > maxIdentifierSegments
  · simp only [hlen,if_true]
    constructor
    · intro h
      cases h
    · intro h
      omega
  · have hle : IdentifierBuf.empty.segments.length + (split input segmentSeparator).length ≤
        maxIdentifierSegments := by simp only [IdentifierBuf.empty,List.length_nil]; omega
    simp only [hlen,if_false,foldlM_parseSegment_eq_ok_iff hle]
    simp [IdentifierBuf.empty]
    omega

/-- A rejected text is reported under its own text: with the part count when there are too
many parts, and otherwise for the first part that is empty or illegal. The count check of
`push_checked` never fires, since the parts are counted first. -/
theorem fromStr_eq_error {input : String} {e : IdentifierParseError}
    (h : IdentifierBuf.fromStr input = .error e) :
    input ≠ "" ∧ ((split input segmentSeparator).length > maxIdentifierSegments ∧
        e = .parseTooManySegmentsError input (split input segmentSeparator).length ∨
      ∃ pre segment post, split input segmentSeparator = pre ++ segment :: post ∧
        (∀ s ∈ pre, containsOnlyLegalChars s) ∧ containsOnlyLegalChars segment = false ∧
        e = segmentError input segment) := by
  unfold IdentifierBuf.fromStr at h
  by_cases hin : input = ""
  · subst hin
    cases h
  have he : input.isEmpty = false := by simpa [String.isEmpty_iff] using hin
  simp only [he,Bool.false_eq_true,if_false] at h
  refine ⟨hin,?_⟩
  by_cases hlen : (split input segmentSeparator).length > maxIdentifierSegments
  · simp only [hlen,if_true] at h
    cases h
    exact Or.inl ⟨hlen,rfl⟩
  · simp only [hlen,if_false] at h
    exact Or.inr (foldlM_parseSegment_eq_error (by simp [IdentifierBuf.empty]; omega) h)

example : IdentifierBuf.fromStr "a..b" = .error (.parseEmptySegmentError "a..b") := by decide

example : IdentifierBuf.fromStr "a.b c" =
    .error (.invalidSegment "a.b c" "b c" (.illegalCharactersError "b c")) := by decide

theorem Identifier.fromStr_eq_ok_iff {input : String} {id : Identifier} :
    Identifier.fromStr input = .ok id ↔ IdentifierBuf.fromStr input = .ok ⟨id.segments⟩ := by
  unfold Identifier.fromStr
  cases IdentifierBuf.fromStr input with
  | error e => simp [Except.map]
  | ok b =>
    simp only [Except.map,Except.ok.injEq,IdentifierBuf.intoIdentifier]
    constructor
    · rintro rfl
      rfl
    · rintro rfl
      rfl

/-- A valid identifier parses back from its text. -/
theorem fromStr_toString {id : Identifier} (hv : id.Valid) :
    IdentifierBuf.fromStr id.toString = .ok ⟨id.segments⟩ := by
  obtain ⟨hlen,hs⟩ := hv
  rcases hnil : id.segments with _ | ⟨s,rest⟩
  · have : id.toString = "" := by simp [Identifier.toString,hnil]
    rw [this]
    rfl
  · have hne : id.segments ≠ [] := by simp [hnil]
    have htext : id.toString ≠ "" := by
      intro he
      have := isEmpty_toString hs
      simp [he,hnil] at this
    rw [← hnil]
    refine fromStr_eq_ok_iff.2 (Or.inr ⟨htext,?_⟩)
    rw [split_toString hs hne]
    exact ⟨hlen,hs,rfl⟩

/-- An accepted text is the text of what it parses to. -/
theorem toString_of_fromStr_eq_ok {input : String} {b : IdentifierBuf}
    (h : IdentifierBuf.fromStr input = .ok b) : b.intoIdentifier.toString = input := by
  rcases fromStr_eq_ok_iff.1 h with ⟨rfl,rfl⟩ | ⟨-,-,-,rfl⟩
  · rfl
  · exact toString_split input

theorem identifier_text_round_trip :
    (∀ id : Identifier, id.segments.length ≤ maxIdentifierSegments →
        (∀ s ∈ id.segments, s ≠ "" ∧ containsOnlyLegalChars s) → Identifier.fromStr id.toString = .ok id) ∧
    ∀ input : String,
      ((∃ id, Identifier.fromStr input = .ok id) ↔ input = "" ∨
        (split input segmentSeparator).length ≤ maxIdentifierSegments ∧
          ∀ s ∈ split input segmentSeparator, s ≠ "" ∧ containsOnlyLegalChars s) ∧
      ∀ id, Identifier.fromStr input = .ok id → id.toString = input := by
  refine ⟨fun id hlen hs => Identifier.fromStr_eq_ok_iff.2 (fromStr_toString ⟨hlen,fun s h => (hs s h).2⟩),
    fun input => ⟨?_,fun id h => ?_⟩⟩
  · -- legal parts are non-empty, so the two sides differ only in how the result is named
    have hlegal : ∀ s, containsOnlyLegalChars s → s ≠ "" := fun s h he =>
      absurd (isEmpty_of_containsOnlyLegalChars h) (by simp [he])
    simp only [Identifier.fromStr_eq_ok_iff,fromStr_eq_ok_iff]
    constructor
    · rintro ⟨id,⟨rfl,-⟩ | ⟨-,hlen,hs,-⟩⟩
      · exact Or.inl rfl
      · exact Or.inr ⟨hlen,fun s h => ⟨hlegal s (hs s h),hs s h⟩⟩
    · rintro (rfl | ⟨hlen,hs⟩)
      · exact ⟨⟨[]⟩,Or.inl ⟨rfl,rfl⟩⟩
      · by_cases hin : input = ""
        · exact ⟨⟨[]⟩,Or.inl ⟨hin,rfl⟩⟩
        · exact ⟨⟨split input segmentSeparator⟩,Or.inr ⟨hin,hlen,fun s h => (hs s h).2,rfl⟩⟩
  · exact toString_of_fromStr_eq_ok (Identifier.fromStr_eq_ok_iff.1 h)

/-- The round trip at a two-segment identifier. -/
theorem identifier_text_round_trip_two_segments :
    (⟨["group","a-1"]⟩ : Identifier).segments.length ≤ maxIdentifierSegments ∧
      (∀ s ∈ (⟨["group","a-1"]⟩ : Identifier).segments, s ≠ "" ∧ containsOnlyLegalChars s) ∧
      Identifier.fromStr (⟨["group","a-1"]⟩ : Identifier).toString = .ok ⟨["group","a-1"]⟩ :=
  have hlen : (⟨["group","a-1"]⟩ : Identifier).segments.length ≤ maxIdentifierSegments := by decide
  have hs : ∀ s ∈ (⟨["group","a-1"]⟩ : Identifier).segments, s ≠ "" ∧ containsOnlyLegalChars s := by decide
  ⟨hlen,hs,identifier_text_round_trip.1 _ hlen hs⟩

end Flotsync.Member
