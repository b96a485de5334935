import Mathlib.Data.Int.Notation
import Mathlib.Data.List.Basic

/-! Binary search, as the C library has it. -/
namespace BsdAdditions.Common

variable {α : Type*}

/-- The search among the `lim` elements from `base` on: the index of an element that `cmp` takes for
the key, if it comes upon one. Without a result an element outside the list has been asked for. -/
def bsearch (cmp : α → ℤ) (xs : List α) (base lim : ℕ) : Option (Option ℕ) :=
  if lim = 0 then some none
  else
    let p := base + lim / 2
    match xs[p]? with
    | none => none
    | some x =>
      if cmp x = 0 then some (some p)
      else if 0 < cmp x then bsearch cmp xs (p + 1) ((lim - 1) / 2)
      else bsearch cmp xs base (lim / 2)
termination_by lim

/-- The elements below the key come first, then at most one that equals it, then those above. -/
abbrev Ordered (cmp : α → ℤ) (xs : List α) : Prop := xs.Pairwise fun a b => cmp a ≤ 0 → cmp b < 0

/-- A search of a part of the list that holds the key if the list does. -/
theorem bsearch_spec {cmp : α → ℤ} {xs : List α} (h : Ordered cmp xs) (base lim : ℕ)
    (hlen : base + lim ≤ xs.length)
    (hpart : ∀ i (hi : i < xs.length), cmp xs[i] = 0 → base ≤ i ∧ i < base + lim) :
    ∃ r, bsearch cmp xs base lim = some r ∧ (r.isSome = true ↔ ∃ x ∈ xs, cmp x = 0) := by
  fun_induction bsearch cmp xs base lim with
  | case1 base =>
    refine ⟨none, rfl, ?_⟩
    simp only [Option.isSome_none, Bool.false_eq_true, false_iff]
    rintro ⟨x, hx, h0⟩
    obtain ⟨i, hi, rfl⟩ := List.getElem_of_mem hx
    have := hpart i hi h0
    omega
  | case2 base lim hlim p hnone =>
    rw [List.getElem?_eq_none_iff] at hnone
    omega
  | case3 base lim hlim p x hx h0 =>
    exact ⟨some p, rfl, iff_of_true rfl ⟨x, List.mem_of_getElem? hx, h0⟩⟩
  | case4 base lim hlim p x hx h0 hpos ih =>
    obtain ⟨hp, rfl⟩ := List.getElem?_eq_some_iff.mp hx
    -- what stands before an element below the key is below the key
    refine ih (by omega) fun i hi hi0 => ?_
    have := hpart i hi hi0
    have hlt : p < i := by
      by_contra hle
      obtain heq | hip : i = p ∨ i < p := by omega
      · subst heq
        exact h0 hi0
      · have := List.pairwise_iff_getElem.mp h i p hi hp hip (by omega)
        omega
    omega
  | case5 base lim hlim p x hx h0 hneg ih =>
    obtain ⟨hp, rfl⟩ := List.getElem?_eq_some_iff.mp hx
    refine ih (by omega) fun i hi hi0 => ?_
    have := hpart i hi hi0
    have hlt : i < p := by
      by_contra hle
      obtain heq | hpi : i = p ∨ p < i := by omega
      · subst heq
        exact h0 hi0
      · have := List.pairwise_iff_getElem.mp h p i hp hi hpi (by omega)
        omega
    omega

end BsdAdditions.Common
