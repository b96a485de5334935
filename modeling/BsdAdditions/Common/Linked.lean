import Mathlib.Data.List.Basic
import Mathlib.Logic.Function.Basic

/-! Doubly linked lists: nodes with a forward and a backward pointer, and walks along them. -/
namespace BsdAdditions.Common

variable {α : Type*} {next prev : α → Option α} {p q : Option α} {xs ys : List α} {i : α}

/-- The nodes are linked in this order in both directions; `p` stands before the first of them and
`q` behind the last. -/
def Seg (next prev : α → Option α) : Option α → List α → Option α → Prop
  | _, [], _ => True
  | p, i :: xs, q => prev i = p ∧ next i = xs.head?.or q ∧ Seg next prev (some i) xs q

attribute [local simp] Seg

theorem seg_append : Seg next prev p (xs ++ ys) q ↔
    Seg next prev p xs (ys.head?.or q) ∧ Seg next prev (xs.getLast?.or p) ys q := by
  induction xs generalizing p with
  | nil => simp
  | cons i xs ih =>
    have hlast : (i :: xs).getLast?.or p = xs.getLast?.or (some i) := by
      rw [List.getLast?_cons]
      cases xs.getLast? <;> rfl
    rw [List.cons_append, Seg, Seg, ih, List.head?_append, Option.or_assoc, hlast]
    tauto

theorem Seg.congr {next' prev' : α → Option α} (h : Seg next prev p xs q)
    (hn : ∀ i ∈ xs, next' i = next i) (hp : ∀ i ∈ xs, prev' i = prev i) : Seg next' prev' p xs q := by
  induction xs generalizing p with
  | nil => trivial
  | cons i xs ih =>
    obtain ⟨hprev, hnext, hrest⟩ := h
    refine ⟨?_, ?_, ih hrest (fun j hj => hn j (by simp [hj])) fun j hj => hp j (by simp [hj])⟩
    · rw [hp i (by simp), hprev]
    · rw [hn i (by simp), hnext]

/-- Up to the end of the list the forward pointers fix what follows a node. -/
theorem Seg.unique {p' : Option α} (h : Seg next prev p (i :: xs) none) (h' : Seg next prev p' (i :: ys) none) :
    xs = ys := by
  induction xs generalizing i ys p p' with
  | nil =>
    cases ys with
    | nil => rfl
    | cons j ys => simpa [h.2.1] using h'.2.1
  | cons j xs ih =>
    cases ys with
    | nil => simpa [h.2.1] using h'.2.1
    | cons j' ys =>
      have hj : j = j' := by simpa [h.2.1] using h'.2.1
      subst hj
      rw [ih h.2.2 h'.2.2]

/-- A list that ends has no node twice. -/
theorem Seg.nodup (h : Seg next prev p xs none) : xs.Nodup := by
  induction xs generalizing p with
  | nil => exact List.nodup_nil
  | cons i xs ih =>
    refine List.nodup_cons.mpr ⟨fun hi => ?_, ih h.2.2⟩
    obtain ⟨a, b, rfl⟩ := List.append_of_mem hi
    have hb : Seg next prev _ (i :: b) none := (seg_append.mp h.2.2).2
    have heq := congrArg List.length (h.unique hb)
    simp at heq
    omega

/-! ### Walks -/

/-- At most `k` steps forward, no further than the last node. -/
def walk (next : α → Option α) : ℕ → α → α
  | 0, i => i
  | k + 1, i =>
    match next i with
    | none => i
    | some j => walk next k j

/-- Steps forward to the last node; without a result the fuel has run out. -/
def walkEnd (next : α → Option α) : ℕ → α → Option α
  | 0, _ => none
  | fuel + 1, i =>
    match next i with
    | none => some i
    | some j => walkEnd next fuel j

/-- `k` steps forward; without a result the pointer of no node has been asked for. -/
def follow (next : α → Option α) : ℕ → Option α → Option (Option α)
  | 0, p => some p
  | _ + 1, none => none
  | k + 1, some i => follow next k (next i)

/-- The next `k` nodes. -/
def collect (next : α → Option α) : ℕ → Option α → Option (List α)
  | 0, _ => some []
  | _ + 1, none => none
  | k + 1, some i => (collect next k (next i)).map (i :: ·)

/-- A node with another one behind it. -/
theorem Seg.step {j : α} (h : Seg next prev p (j :: xs ++ i :: ys) q) :
    ∃ g, (xs ++ i :: ys).head? = some g ∧ next j = some g ∧ Seg next prev (some j) (xs ++ i :: ys) q := by
  obtain ⟨-, hnext, hrest⟩ := h
  cases xs with
  | nil => exact ⟨i, rfl, hnext, hrest⟩
  | cons g xs => exact ⟨g, rfl, hnext, hrest⟩

theorem Seg.walk_eq {f : α} (h : Seg next prev p (xs ++ i :: ys) q) (hf : (xs ++ i :: ys).head? = some f) :
    walk next xs.length f = i := by
  induction xs generalizing f p with
  | nil => exact (Option.some.inj hf).symm
  | cons j xs ih =>
    obtain rfl : j = f := Option.some.inj hf
    obtain ⟨g, hg, hnext, hrest⟩ := h.step
    rw [List.length_cons, walk, hnext]
    exact ih hrest hg

theorem Seg.walk_last {f l : α} (h : Seg next prev p (xs ++ [l]) none) (hf : (xs ++ [l]).head? = some f)
    {k : ℕ} (hk : xs.length ≤ k) : walk next k f = l := by
  induction xs generalizing f p k with
  | nil =>
    obtain rfl : l = f := Option.some.inj hf
    have hnext : next l = none := h.2.1
    cases k with
    | zero => rfl
    | succ k => rw [walk, hnext]
  | cons j xs ih =>
    obtain rfl : j = f := Option.some.inj hf
    obtain ⟨k, rfl⟩ := Nat.exists_eq_add_of_le' hk
    obtain ⟨g, hg, hnext, hrest⟩ := h.step
    rw [List.length_cons, ← Nat.add_assoc, walk, hnext]
    exact ih hrest hg (Nat.le_add_left _ _)

theorem Seg.walkEnd_eq {f l : α} (h : Seg next prev p (xs ++ [l]) none) (hf : (xs ++ [l]).head? = some f)
    {fuel : ℕ} (hfuel : xs.length < fuel) : walkEnd next fuel f = some l := by
  obtain ⟨fuel, rfl⟩ := Nat.exists_eq_add_of_lt hfuel
  induction xs generalizing f p with
  | nil =>
    obtain rfl : l = f := Option.some.inj hf
    have hnext : next l = none := h.2.1
    rw [walkEnd, hnext]
  | cons j xs ih =>
    obtain rfl : j = f := Option.some.inj hf
    obtain ⟨g, hg, hnext, hrest⟩ := h.step
    have hcount : (j :: xs).length + fuel = xs.length + fuel + 1 := by
      rw [List.length_cons]
      omega
    rw [hcount, walkEnd, hnext]
    exact ih hrest hg (by omega)

theorem Seg.follow_eq (h : Seg next prev p (xs ++ i :: ys) q) :
    follow next xs.length (xs ++ i :: ys).head? = some (some i) := by
  induction xs generalizing p with
  | nil => rfl
  | cons j xs ih =>
    obtain ⟨g, hg, hnext, hrest⟩ := h.step
    rw [List.cons_append, List.head?_cons, List.length_cons, follow, hnext, ← hg]
    exact ih hrest

theorem Seg.collect_eq (h : Seg next prev p xs none) : collect next xs.length xs.head? = some xs := by
  induction xs generalizing p with
  | nil => rfl
  | cons j xs ih =>
    rw [List.length_cons, List.head?_cons, collect, h.2.1, Option.or_none, ih h.2.2]
    rfl

/-! ### Changes -/

variable [DecidableEq α]

/-- The pointer of a node is set, if there is a node. -/
def link (f : α → Option α) : Option α → Option α → α → Option α
  | none, _ => f
  | some i, q => Function.update f i q

theorem link_self {f : α → Option α} (i : α) (q : Option α) : link f (some i) q i = q := by
  rw [link, Function.update_self]

theorem link_of_ne {f : α → Option α} {at? q : Option α} (h : at? ≠ some i) : link f at? q i = f i := by
  cases at? with
  | none => rfl
  | some j => exact Function.update_of_ne (fun heq => h (congrArg some heq.symm)) q f

/-- What stands behind the nodes changes. -/
theorem Seg.link_last (h : Seg next prev p xs q) (hnodup : xs.Nodup) (q' : Option α) :
    Seg (link next xs.getLast? q') prev p xs q' := by
  obtain rfl | ⟨init, l, rfl⟩ := xs.eq_nil_or_concat'
  · trivial
  obtain ⟨hinit, hlast⟩ := seg_append.mp h
  have hl : l ∉ init := by
    intro hmem
    exact (List.nodup_append.mp hnodup).2.2 l hmem l (List.mem_singleton_self l) rfl
  have hne : ∀ i ∈ init, [l].getLast? ≠ some i := by
    rintro i hi heq
    obtain rfl : l = i := Option.some.inj heq
    exact hl hi
  rw [List.getLast?_append_of_ne_nil _ (List.cons_ne_nil l [])]
  refine seg_append.mpr ⟨?_, ?_⟩
  · exact hinit.congr (fun i hi => link_of_ne (hne i hi)) fun _ _ => rfl
  · exact ⟨hlast.1, link_self l q', trivial⟩

/-- What stands before the nodes changes. -/
theorem Seg.link_head (h : Seg next prev p xs q) (hnodup : xs.Nodup) (p' : Option α) :
    Seg next (link prev xs.head? p') p' xs q := by
  cases xs with
  | nil => trivial
  | cons f xs =>
    obtain ⟨-, hnext, hrest⟩ := h
    refine ⟨link_self f p', hnext, hrest.congr (fun _ _ => rfl) fun i hi => ?_⟩
    apply link_of_ne
    rintro ⟨⟩
    exact (List.nodup_cons.mp hnodup).1 hi

/-- A node that stands in no list can be given other pointers. -/
theorem Seg.update_notMem (h : Seg next prev p xs q) (hi : i ∉ xs) (v : Option α) :
    Seg (Function.update next i v) prev p xs q ∧ Seg next (Function.update prev i v) p xs q := by
  have hne : ∀ j ∈ xs, j ≠ i := fun j hj heq => hi (heq ▸ hj)
  refine ⟨h.congr (fun j hj => ?_) fun _ _ => rfl, h.congr (fun _ _ => rfl) fun j hj => ?_⟩
  · exact Function.update_of_ne (hne j hj) v next
  · exact Function.update_of_ne (hne j hj) v prev

end BsdAdditions.Common
