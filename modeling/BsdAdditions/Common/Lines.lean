import Mathlib.Data.List.Basic

/-! The lines of a text that is read one symbol after the other. The state is the list of the
finished lines together with the line that is being read. -/
namespace BsdAdditions.Common

variable {α : Type*} [DecidableEq α] (nl : α)

/-- A separator finishes the line, every other symbol extends it. -/
def feed (z : List (List α) × List α) (c : List α) : List (List α) × List α :=
  c.foldl (fun z b => if b = nl then (z.1 ++ [z.2], []) else (z.1, z.2 ++ [b])) z

/-- What has been read so far. -/
def unlines (z : List (List α) × List α) : List α := z.1.flatMap (· ++ [nl]) ++ z.2

variable (z : List (List α) × List α) (c c' : List α)

@[simp] theorem feed_nil : feed nl z [] = z := rfl

theorem feed_append : feed nl z (c ++ c') = feed nl (feed nl z c) c' := List.foldl_append

theorem feed_singleton (b : α) :
    feed nl z [b] = if b = nl then (z.1 ++ [z.2], []) else (z.1, z.2 ++ [b]) := rfl

/-- Symbols with no separator among them extend the line. -/
theorem feed_of_notMem (h : nl ∉ c) : feed nl z c = (z.1, z.2 ++ c) := by
  induction c generalizing z with
  | nil => simp
  | cons b c ih =>
    obtain ⟨hb, hc⟩ : nl ≠ b ∧ nl ∉ c := by simpa using h
    have hstep : feed nl z (b :: c) = feed nl (z.1, z.2 ++ [b]) c := by
      rw [← List.singleton_append, feed_append, feed_singleton, if_neg hb.symm]
    rw [hstep, ih _ hc, List.append_assoc, List.singleton_append]

/-- One line with its separator. -/
theorem feed_line (h : nl ∉ c) : feed nl z (c ++ nl :: c') = feed nl (z.1 ++ [z.2 ++ c], []) c' := by
  rw [feed_append, feed_of_notMem nl z c h, ← List.singleton_append, feed_append, feed_singleton,
    if_pos rfl]

/-- Lines that were there before stay in front. -/
theorem feed_prepend (bs : List (List α)) :
    feed nl (bs ++ z.1, z.2) c = (bs ++ (feed nl z c).1, (feed nl z c).2) := by
  induction c generalizing z with
  | nil => simp
  | cons b c ih =>
    rw [← List.singleton_append, feed_append, feed_append nl z, feed_singleton, feed_singleton]
    split
    · rw [← ih, List.append_assoc]
    · exact ih (z.1, z.2 ++ [b])

theorem unlines_feed : unlines nl (feed nl z c) = unlines nl z ++ c := by
  induction c generalizing z with
  | nil => simp
  | cons b c ih =>
    rw [← List.singleton_append, feed_append, ih, ← List.append_assoc, feed_singleton]
    split
    · subst_vars
      simp [unlines]
    · simp [unlines]

/-- Every separator finishes a line. -/
theorem length_feed : (feed nl z c).1.length = z.1.length + c.count nl := by
  induction c generalizing z with
  | nil => simp
  | cons b c ih =>
    rw [← List.singleton_append, feed_append, ih, feed_singleton, List.count_append]
    split
    · next hb => simp [hb, Nat.add_assoc]
    · next hb => simp [hb]

/-- The line that is being read is empty right after a separator. -/
theorem feed_snd_eq_nil_iff_getLast? (hc : c ≠ []) : (feed nl z c).2 = [] ↔ c.getLast? = some nl := by
  rcases List.eq_nil_or_concat c with rfl | ⟨c, b, rfl⟩
  · exact absurd rfl hc
  · rw [List.concat_eq_append, feed_append, feed_singleton]
    by_cases hb : b = nl <;> simp [hb]

/-- The line that is being read is empty at the start and right after a separator. -/
theorem feed_snd_eq_nil_iff : (feed nl ([], []) c).2 = [] ↔ c = [] ∨ c.getLast? = some nl := by
  by_cases hc : c = []
  · simp [hc]
  · rw [feed_snd_eq_nil_iff_getLast? nl _ c hc]
    exact (or_iff_right hc).symm

/-- More lines have been finished, or the line that is being read is no longer empty. -/
def Grown (z z' : List (List α) × List α) : Prop :=
  z.1.length < z'.1.length ∨ z'.1 = z.1 ∧ z'.2 ≠ []

omit [DecidableEq α] in
theorem Grown.trans {z z' z'' : List (List α) × List α} (h : Grown z z') (h' : Grown z' z'') :
    Grown z z'' := by
  rcases h' with h' | ⟨h', hne⟩
  · rcases h with h | ⟨h, -⟩
    · exact .inl (Nat.lt_trans h h')
    · exact .inl (h ▸ h')
  · rcases h with h | ⟨h, -⟩
    · exact .inl (h' ▸ h)
    · exact .inr ⟨h'.trans h, hne⟩

theorem grown_feed (hc : c ≠ []) : Grown z (feed nl z c) := by
  induction c generalizing z with
  | nil => exact absurd rfl hc
  | cons b c ih =>
    have hb : Grown z (feed nl z [b]) := by
      rw [feed_singleton]
      split
      · exact .inl (by simp)
      · exact .inr ⟨rfl, by simp⟩
    rw [← List.singleton_append, feed_append]
    by_cases hnil : c = []
    · rw [hnil]
      exact hb
    · exact hb.trans (ih _ hnil)

/-- A text up to its first separator. -/
theorem takeWhile_ne_cases : nl ∉ c.takeWhile (· ≠ nl) ∧
    c.take (c.takeWhile (· ≠ nl)).length = c.takeWhile (· ≠ nl) ∧ (c = c.takeWhile (· ≠ nl) ∨
      c = c.takeWhile (· ≠ nl) ++ nl :: c.drop ((c.takeWhile (· ≠ nl)).length + 1)) := by
  induction c with
  | nil => simp
  | cons b c ih =>
    by_cases hb : b = nl
    · simp [hb]
    · simpa [hb, Ne.symm hb] using ih

/-- The lines of a text, where a final separator adds no line. -/
def lines (c : List α) : List (List α) :=
  let z := feed nl ([], []) c
  if z.2 = [] then z.1 else z.1 ++ [z.2]

/-- Behind lines that were there before come those of the text. -/
theorem ite_feed_eq_append_lines (bs : List (List α)) :
    (if (feed nl (bs, []) c).2 = [] then (feed nl (bs, []) c).1
      else (feed nl (bs, []) c).1 ++ [(feed nl (bs, []) c).2]) = bs ++ lines nl c := by
  have hfeed : feed nl (bs, []) c = (bs ++ (feed nl ([], []) c).1, (feed nl ([], []) c).2) := by
    rw [← feed_prepend, List.append_nil]
  rw [hfeed, lines]
  split
  · rfl
  · rw [List.append_assoc]

/-- Writing the lines again gives the text, with a final separator. -/
theorem flatMap_lines (hc : c ≠ []) :
    (lines nl c).flatMap (· ++ [nl]) = if c.getLast? = some nl then c else c ++ [nl] := by
  have hlast : (feed nl ([], []) c).2 = [] ↔ c.getLast? = some nl := by
    rw [feed_snd_eq_nil_iff]
    exact or_iff_right hc
  have hjoin : unlines nl (feed nl ([], []) c) = c := unlines_feed nl ([], []) c
  rw [unlines] at hjoin
  by_cases hnl : c.getLast? = some nl
  · rw [lines, if_pos (hlast.mpr hnl), if_pos hnl]
    rwa [hlast.mpr hnl, List.append_nil] at hjoin
  · rw [lines, if_neg (hnl ∘ hlast.mp), if_neg hnl, List.flatMap_append, List.flatMap_singleton,
      ← List.append_assoc, hjoin]

end BsdAdditions.Common
