import Mathlib.Data.List.DropRight
import PagedTraversal.Text.Blank

/-!
# PagedTraversal.Proofs.Text.BlankEnds

The blank ends of a text. What `trimBlank` leaves is the text less some `White_Space` in front of it
and behind it, it neither begins nor ends with any, and there is one such rest.

* `isBlank_iff`: the blanks, one by one.
* `trimBlank_eq_iff`: trimming, by what is left out and what is left.
-/

namespace PagedTraversal

/-- The characters with the property `White_Space`, by their code points. -/
def IsWhiteSpace (c : Char) : Prop :=
  c.toNat ∈ [0x9, 0xA, 0xB, 0xC, 0xD, 0x20, 0x85, 0xA0, 0x1680, 0x2000, 0x2001, 0x2002, 0x2003,
    0x2004, 0x2005, 0x2006, 0x2007, 0x2008, 0x2009, 0x200A, 0x2028, 0x2029, 0x202F, 0x205F, 0x3000]

theorem isBlank_iff {c : Char} : isBlank c = true ↔ IsWhiteSpace c := by
  simp only [isBlank, IsWhiteSpace, Bool.or_eq_true, Bool.and_eq_true, decide_eq_true_eq,
    beq_iff_eq, List.mem_cons, List.not_mem_nil, or_false]
  omega

theorem isBlank_eq_false_iff {c : Char} : isBlank c = false ↔ ¬ IsWhiteSpace c := by
  rw [← isBlank_iff, Bool.not_eq_true]

/-- What is left of a text when the `White_Space` at its two ends is left out. -/
structure TrimsTo (cs core : List Char) : Prop where
  ends : ∃ front back, cs = front ++ core ++ back ∧ (∀ c ∈ front, IsWhiteSpace c) ∧
    ∀ c ∈ back, IsWhiteSpace c
  first : ∀ c ∈ core.head?, ¬ IsWhiteSpace c
  last : ∀ c ∈ core.getLast?, ¬ IsWhiteSpace c

theorem head?_dropWhile_isBlank (cs : List Char) :
    ∀ c ∈ (cs.dropWhile isBlank).head?, ¬ IsWhiteSpace c := by
  intro c hc
  have hfirst := List.head?_dropWhile_not isBlank cs
  rw [Option.mem_def.1 hc] at hfirst
  exact isBlank_eq_false_iff.1 hfirst

/-- Blanks are left out up to the first character that is none. -/
theorem dropWhile_isBlank_append {blanks rest : List Char} (hblanks : ∀ c ∈ blanks, IsWhiteSpace c)
    (hrest : ∀ c ∈ rest.head?, ¬ IsWhiteSpace c) : (blanks ++ rest).dropWhile isBlank = rest := by
  rw [List.dropWhile_append_of_pos fun c hc => isBlank_iff.2 (hblanks c hc)]
  cases rest with
  | nil => rfl
  | cons c rest =>
    have hc : isBlank c = false := isBlank_eq_false_iff.2 (hrest c rfl)
    exact List.dropWhile_cons_of_neg (by simp [hc])

theorem trimsTo_trimBlank (cs : List Char) : TrimsTo cs (trimBlank cs) := by
  let rest := cs.dropWhile isBlank
  have hsplit : rest = trimBlank cs ++ rest.rtakeWhile isBlank :=
    List.rdropWhile_append_rtakeWhile.symm
  refine ⟨⟨cs.takeWhile isBlank, rest.rtakeWhile isBlank, ?_, ?_, ?_⟩, ?_, ?_⟩
  · rw [List.append_assoc, ← hsplit, List.takeWhile_append_dropWhile]
  · intro c hc
    exact isBlank_iff.1 (List.mem_takeWhile_imp hc)
  · intro c hc
    exact isBlank_iff.1 (List.mem_rtakeWhile_imp hc)
  · intro c hc
    have hrest : rest.head? = some c := by
      rw [hsplit, List.head?_append, Option.mem_def.1 hc, Option.some_or]
    exact head?_dropWhile_isBlank cs c hrest
  · intro c hc
    rw [trimBlank, List.getLast?_reverse] at hc
    exact head?_dropWhile_isBlank _ c hc

theorem TrimsTo.trimBlank_eq {cs core : List Char} (h : TrimsTo cs core) : trimBlank cs = core := by
  obtain ⟨⟨front, back, rfl, hfront, hback⟩, hfirst, hlast⟩ := h
  cases core with
  | nil =>
    -- the blanks in front and the blanks behind are one run of blanks
    have hblanks : ∀ c ∈ front ++ back, IsWhiteSpace c := by
      intro c hc
      rcases List.mem_append.1 hc with hc | hc
      · exact hfront c hc
      · exact hback c hc
    have hnone : (front ++ back ++ []).dropWhile isBlank = [] :=
      dropWhile_isBlank_append hblanks hfirst
    rw [List.append_nil] at hnone
    rw [trimBlank, List.append_nil, hnone]
    rfl
  | cons c core =>
    have hfrom : (front ++ (c :: core ++ back)).dropWhile isBlank = c :: core ++ back :=
      dropWhile_isBlank_append hfront hfirst
    have hblanks : ∀ b ∈ back.reverse, IsWhiteSpace b := by
      intro b hb
      exact hback b (List.mem_reverse.1 hb)
    have hend : ∀ b ∈ (c :: core).reverse.head?, ¬ IsWhiteSpace b := by
      intro b hb
      rw [List.head?_reverse] at hb
      exact hlast b hb
    rw [trimBlank, List.append_assoc, hfrom, List.reverse_append,
      dropWhile_isBlank_append hblanks hend, List.reverse_reverse]

theorem trimBlank_eq_iff {cs core : List Char} : trimBlank cs = core ↔ TrimsTo cs core := by
  constructor
  · rintro rfl
    exact trimsTo_trimBlank cs
  · exact TrimsTo.trimBlank_eq

end PagedTraversal
