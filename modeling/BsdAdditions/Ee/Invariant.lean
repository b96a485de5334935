import Mathlib.Data.List.Basic
import BsdAdditions.Ee.File

/-! The consistency of the editor's state, and the ways in which operations may change it. -/
namespace BsdAdditions.Ee
open Common Common.Prog

/-! ### Lines -/

/-- The nodes are linked both ways, in this order. -/
def Chain (heap : ℕ → Option Node) : Option ℕ → List ℕ → Prop
  | _, [] => True
  | p, i :: is => ∃ n, heap i = some n ∧ n.prev = p ∧ n.next = is.head? ∧ Chain heap (some i) is

/-- A line fits in its block, and is terminated if `t` asks for it. -/
structure NodeOk (t : Prop) (n : Node) : Prop where
  pos : 1 ≤ n.lineLength
  le : n.lineLength ≤ n.maxLength
  size : n.bytes.length = n.maxLength
  term : t → n.bytes[n.lineLength - 1]? = some 0

structure Lines (t : Prop) (heap : ℕ → Option Node) (ids : List ℕ) : Prop where
  chain : Chain heap none ids
  nodup : ids.Nodup
  ok : ∀ i ∈ ids, ∀ n, heap i = some n → NodeOk t n

/-- The addresses of the lines, in order. -/
structure Linked (s : Editor) (ids : List ℕ) : Prop where
  chain : Chain s.heap none ids
  nodup : ids.Nodup
  first : ids.head? = some s.firstLine
  bound : ∀ i ∈ ids, i < s.fresh

/-- The list of lines, the current one, and both copies of the cursor in it. -/
structure Inv (t : Prop) (s : Editor) (ids : List ℕ) (n : Node) : Prop where
  lines : Lines t s.heap ids
  first : ids.head? = some s.firstLine
  bound : ∀ i ∈ ids, i < s.fresh
  mem : s.currLine ∈ ids
  curr : s.heap s.currLine = some n
  pos : 1 ≤ s.position
  le : s.position ≤ n.lineLength
  point : s.point = ⟨n.line, s.position - 1⟩
  narrow : s.eeChinese = false

def Consistent (t : Prop) (s : Editor) : Prop := ∃ ids n, Inv t s ids n

/-- The list of lines alone. -/
structure Listed (t : Prop) (s : Editor) (ids : List ℕ) : Prop where
  lines : Lines t s.heap ids
  first : ids.head? = some s.firstLine
  bound : ∀ i ∈ ids, i < s.fresh
  narrow : s.eeChinese = false

theorem Inv.linked {t : Prop} {s : Editor} {ids : List ℕ} {n : Node} (h : Inv t s ids n) :
    Linked s ids :=
  ⟨h.lines.chain, h.lines.nodup, h.first, h.bound⟩

theorem Inv.listed {t : Prop} {s : Editor} {ids : List ℕ} {n : Node} (h : Inv t s ids n) :
    Listed t s ids :=
  ⟨h.lines, h.first, h.bound, h.narrow⟩

section Lines
variable {t : Prop} {heap : ℕ → Option Node} {ids : List ℕ}

theorem Chain.exists_node {p : Option ℕ} (h : Chain heap p ids) {i : ℕ} (hi : i ∈ ids) :
    ∃ n, heap i = some n := by
  induction ids generalizing p with
  | nil => simp at hi
  | cons j is ih =>
    obtain ⟨n, hn, -, -, hc⟩ := h
    rcases List.mem_cons.mp hi with rfl | hi
    · exact ⟨n, hn⟩
    · exact ih hc hi

theorem Chain.next_mem {p : Option ℕ} (h : Chain heap p ids) {i j : ℕ} {n : Node} (hi : i ∈ ids)
    (hn : heap i = some n) (hj : n.next = some j) : j ∈ ids := by
  induction ids generalizing p with
  | nil => simp at hi
  | cons k is ih =>
    obtain ⟨m, hm, -, hnext, hc⟩ := h
    rcases List.mem_cons.mp hi with rfl | hi
    · obtain rfl : m = n := by simpa [hm] using hn
      exact List.mem_cons_of_mem _ (List.mem_of_head? (hnext ▸ hj))
    · exact List.mem_cons_of_mem _ (ih hc hi)

theorem Chain.prev_mem {p : Option ℕ} (h : Chain heap p ids) {i j : ℕ} {n : Node} (hi : i ∈ ids)
    (hn : heap i = some n) (hj : n.prev = some j) (hnd : ids.Nodup) : j ∈ ids ∨ p = some j := by
  induction ids generalizing p with
  | nil => simp at hi
  | cons k is ih =>
    obtain ⟨m, hm, hprev, -, hc⟩ := h
    rcases List.mem_cons.mp hi with rfl | hi
    · obtain rfl : m = n := by simpa [hm] using hn
      exact .inr (hprev ▸ hj)
    · rcases ih hc hi (List.nodup_cons.mp hnd).2 with hmem | hk
      · exact .inl (List.mem_cons_of_mem _ hmem)
      · exact .inl (by simpa using .inl (Option.some.inj hk).symm)

theorem Linked.next_mem {s : Editor} (h : Linked s ids) {i j : ℕ} {n : Node} (hi : i ∈ ids)
    (hn : s.heap i = some n) (hj : n.next = some j) : j ∈ ids :=
  h.chain.next_mem hi hn hj

theorem Lines.exists_node (h : Lines t heap ids) {i : ℕ} (hi : i ∈ ids) :
    ∃ n, heap i = some n ∧ NodeOk t n := by
  obtain ⟨n, hn⟩ := h.chain.exists_node hi
  exact ⟨n, hn, h.ok i hi n hn⟩

theorem Lines.next_mem (h : Lines t heap ids) {i j : ℕ} {n : Node} (hi : i ∈ ids)
    (hn : heap i = some n) (hj : n.next = some j) : j ∈ ids :=
  h.chain.next_mem hi hn hj

theorem Lines.prev_mem (h : Lines t heap ids) {i j : ℕ} {n : Node} (hi : i ∈ ids)
    (hn : heap i = some n) (hj : n.prev = some j) : j ∈ ids :=
  (h.chain.prev_mem hi hn hj h.nodup).resolve_right (by simp)

/-- Walking up never leaves the list. -/
theorem Lines.countUp_isSome (h : Lines t heap ids) (k : ℕ) {i : ℕ} (hi : i ∈ ids) :
    ∃ c, countUp heap k i = some c := by
  induction k generalizing i with
  | zero => exact ⟨0, rfl⟩
  | succ k ih =>
    obtain ⟨n, hn, -⟩ := h.exists_node hi
    cases hp : n.prev with
    | none => exact ⟨0, by simp [countUp, hn, hp]⟩
    | some p =>
      obtain ⟨c, hc⟩ := ih (h.prev_mem hi hn hp)
      exact ⟨c + 1, by simp [countUp, hn, hp, hc]⟩

end Lines

/-! ### Frames -/

/-- Only the place on the screen changes. -/
def Scrolls (s s' : Editor) : Prop :=
  ∃ vert horz offset, s' = { s with scrVert := vert, scrHorz := horz, horizOffset := offset }

theorem Scrolls.refl (s : Editor) : Scrolls s s := ⟨_, _, _, rfl⟩

theorem Scrolls.trans {s s' s'' : Editor} (h : Scrolls s s') (h' : Scrolls s' s'') :
    Scrolls s s'' := by
  obtain ⟨_, _, _, rfl⟩ := h
  obtain ⟨_, _, _, rfl⟩ := h'
  exact ⟨_, _, _, rfl⟩

theorem Scrolls.point {s s' : Editor} (h : Scrolls s s') : s'.point = s.point := by
  obtain ⟨_, _, _, rfl⟩ := h
  rfl

theorem Scrolls.eightbit {s s' : Editor} (h : Scrolls s s') : s'.eightbit = s.eightbit := by
  obtain ⟨_, _, _, rfl⟩ := h
  rfl

/-- The state without the cursor and the screen. -/
def Editor.still (s : Editor) : Editor :=
  { s with currLine := 0, tmpLine := 0, point := ⟨0, 0⟩, position := 0, absoluteLin := 0, scrPos := 0,
           scrVert := 0, scrHorz := 0, horizOffset := 0 }

/-- Only the cursor and the screen change. -/
def Moves (s s' : Editor) : Prop := s.still = s'.still

instance : IsPreorder Editor Moves where
  refl _ := rfl
  trans _ _ _ := Eq.trans

theorem Moves.of_scrolls {s s' : Editor} (h : Scrolls s s') : Moves s s' := by
  obtain ⟨_, _, _, rfl⟩ := h
  rfl

namespace Moves
variable {s s' : Editor} (h : Moves s s')
include h

theorem heap : s'.heap = s.heap := (congrArg Editor.heap h).symm

theorem fresh : s'.fresh = s.fresh := (congrArg Editor.fresh h).symm

theorem firstLine : s'.firstLine = s.firstLine := (congrArg Editor.firstLine h).symm

theorem eeChinese : s'.eeChinese = s.eeChinese := (congrArg Editor.eeChinese h).symm

end Moves

section Inv
variable {t : Prop} {s s' : Editor} {ids : List ℕ} {n m : Node}

theorem Inv.node_ok (h : Inv t s ids n) : NodeOk t n := h.lines.ok _ h.mem _ h.curr

theorem Inv.off_lt (h : Inv t s ids n) : s.point.off < n.bytes.length := by
  obtain ⟨-, hmax, hsize, -⟩ := h.node_ok
  have hp : s.point.off = s.position - 1 := by rw [h.point]
  have := h.pos
  have := h.le
  omega

theorem Inv.block (h : Inv t s ids n) : s.point.block = n.line := by rw [h.point]

/-- The cursor is at the start of the line in both its copies. -/
theorem Inv.point_eq_start_iff (h : Inv t s ids n) : s.point = n.start ↔ s.position = 1 := by
  have := h.pos
  rw [h.point, Node.start, Ptr.mk.injEq]
  simp only [true_and]
  omega

/-- A movement that ends on a node of the list keeps everything. -/
theorem Inv.move (h : Inv t s ids n) (hm : Moves s s') (hmem : s'.currLine ∈ ids)
    (hcurr : s.heap s'.currLine = some m) (hpos : 1 ≤ s'.position)
    (hle : s'.position ≤ m.lineLength) (hpt : s'.point = ⟨m.line, s'.position - 1⟩) :
    Inv t s' ids m where
  lines := hm.heap ▸ h.lines
  first := hm.firstLine ▸ h.first
  bound := hm.fresh ▸ h.bound
  mem := hmem
  curr := hm.heap ▸ hcurr
  pos := hpos
  le := hle
  point := hpt
  narrow := hm.eeChinese ▸ h.narrow

/-- A movement to the start of a line of the list. -/
theorem Inv.enter (h : Inv t s ids n) (hm : Moves s s') (hmem : s'.currLine ∈ ids)
    (hcurr : s.heap s'.currLine = some m) (hpos : s'.position = 1) (hpt : s'.point = m.start) :
    Inv t s' ids m := by
  refine h.move hm hmem hcurr (Nat.le_of_eq hpos.symm) ?_ ?_
  · rw [hpos]
    exact (h.lines.ok _ hmem _ hcurr).pos
  · rw [hpt, hpos, Node.start]

/-- A movement that leaves the cursor where it is. -/
theorem Inv.stay (h : Inv t s ids n) (hm : Moves s s') (hc : s'.currLine = s.currLine)
    (hpos : s'.position = s.position) (hpt : s'.point = s.point) : Inv t s' ids n := by
  refine h.move hm (hc ▸ h.mem) (hc ▸ h.curr) (hpos ▸ h.pos) (hpos ▸ h.le) ?_
  rw [hpt, hpos]
  exact h.point

theorem Inv.scroll (h : Inv t s ids n) (hs : Scrolls s s') : Inv t s' ids n := by
  have hm := Moves.of_scrolls hs
  obtain ⟨_, _, _, rfl⟩ := hs
  exact h.stay hm rfl rfl rfl

end Inv

/-- What the consistency of the state is about. -/
def Editor.core (s : Editor) : (ℕ → Option Node) × ℕ × ℕ × ℕ × Ptr × ℕ × Bool :=
  (s.heap, s.fresh, s.firstLine, s.currLine, s.point, s.position, s.eeChinese)

theorem Inv.of_core {t : Prop} {s s' : Editor} {ids : List ℕ} {n : Node} (h : Inv t s ids n)
    (hs : s'.core = s.core) : Inv t s' ids n := by
  simp only [Editor.core, Prod.mk.injEq] at hs
  obtain ⟨hheap, hfresh, hfirst, hcurr, hpoint, hpos, hnarrow⟩ := hs
  obtain ⟨h1, h2, h3, h4, h5, h6, h7, h8, h9⟩ := h
  constructor <;> simp_all

end BsdAdditions.Ee
