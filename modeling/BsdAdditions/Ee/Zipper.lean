import Mathlib.Data.List.Perm.Subperm
import BsdAdditions.Common.Overwrite
import BsdAdditions.Ee.MoveSound

/-! What the buffer is for: a text with a place in it. The state shows such a text, and the
operations on lines and blocks are changes of it. -/
namespace BsdAdditions.Ee
open Common Common.Prog

/-! ### Blocks -/

section Node
variable {n : Node} {p q : Ptr}

theorem Node.read_eq (hb : p.block = n.line) (hp : p.off < n.bytes.length) :
    n.read p = some n.bytes[p.off] := by
  rw [Node.read, if_pos hb, List.getElem?_eq_getElem hp]

theorem Node.write_eq (hb : p.block = n.line) (hp : p.off < n.bytes.length) (b : UInt8) :
    n.write p b = some { n with bytes := n.bytes.set p.off b } := by
  rw [Node.write, if_pos ⟨hb, hp⟩]

theorem Node.copyFrom_eq {bs : List UInt8} (hb : p.block = n.line)
    (h : p.off + bs.length ≤ n.bytes.length) :
    n.copyFrom p bs = some { n with bytes := overwrite n.bytes p.off bs } := by
  induction bs generalizing n p with
  | nil => simp [Node.copyFrom]
  | cons b bs ih =>
    rw [List.length_cons] at h
    have hrest := ih (n := { n with bytes := n.bytes.set p.off b }) (p := p.add 1) hb
      (by simp only [Ptr.add, List.length_set]; omega)
    simp only [Node.copyFrom, Node.write_eq hb (show p.off < _ by omega), Option.bind_eq_bind,
      Option.bind_some, hrest]
    rw [Ptr.add, overwrite_set h]

theorem Node.readMany_eq {k : ℕ} (hb : p.block = n.line) (h : p.off + k ≤ n.bytes.length) :
    n.readMany p k = some ((n.bytes.drop p.off).take k) := by
  induction k generalizing p with
  | zero => simp [Node.readMany]
  | succ k ih =>
    have hlt : p.off < n.bytes.length := by omega
    have hrest := ih (p := p.add 1) hb (by simp only [Ptr.add]; omega)
    simp only [Node.readMany, Node.read_eq hb hlt, hrest, Option.bind_eq_bind, Option.bind_some,
      List.drop_eq_getElem_cons hlt, List.take_succ_cons]
    rfl

/-- Towards the front of the line a run may be copied over itself. -/
theorem Node.copyDown_eq {k : ℕ} (hp : p.block = n.line) (hq : q.block = n.line)
    (hle : p.off ≤ q.off) (h : q.off + k ≤ n.bytes.length) :
    n.copyDown p q k =
      some { n with bytes := overwrite n.bytes p.off ((n.bytes.drop q.off).take k) } := by
  induction k generalizing n p q with
  | zero => simp [Node.copyDown]
  | succ k ih =>
    have hlt : q.off < n.bytes.length := by omega
    have hlen : ((n.bytes.drop (q.off + 1)).take k).length = k := by
      rw [List.length_take, List.length_drop]
      omega
    have hrest := ih (n := { n with bytes := n.bytes.set p.off n.bytes[q.off] }) (p := p.add 1)
      (q := q.add 1) hp hq (Nat.add_le_add_right hle 1)
      (by simp only [Ptr.add, List.length_set]; omega)
    simp only [Node.copyDown, Node.read_eq hq hlt, Node.write_eq hp (show p.off < _ by omega),
      Option.bind_eq_bind, Option.bind_some, hrest]
    simp only [Ptr.add, List.drop_eq_getElem_cons hlt, List.take_succ_cons]
    rw [List.drop_set_of_lt (by omega), overwrite_set (by omega)]

theorem Node.shiftUp_eq {k : ℕ} (hb : p.block = n.line) (h : p.off + k < n.bytes.length) :
    n.shiftUp p k =
      some { n with bytes := overwrite n.bytes (p.off + 1) ((n.bytes.drop p.off).take k) } := by
  induction k generalizing n with
  | zero => simp [Node.shiftUp]
  | succ k ih =>
    have hlen : ((n.bytes.drop p.off).take k).length = k := by
      rw [List.length_take, List.length_drop]
      omega
    have hread : n.read (p.add k) = some n.bytes[p.off + k] :=
      Node.read_eq (p := p.add k) hb (by simp only [Ptr.add]; omega)
    have hwrite := Node.write_eq (n := n) (p := p.add (k + 1)) hb (by simp only [Ptr.add]; omega)
    have hoff : (p.add (k + 1)).off = p.off + 1 + ((n.bytes.drop p.off).take k).length := by
      simp only [Ptr.add, hlen]
      omega
    have hrest := ih (n := { n with bytes := n.bytes.set (p.add (k + 1)).off n.bytes[p.off + k] }) hb
      (by simp only [List.length_set]; omega)
    have hsnoc : (n.bytes.drop p.off).take (k + 1) =
        (n.bytes.drop p.off).take k ++ [n.bytes[p.off + k]] := by
      rw [List.take_add_one, List.getElem?_drop, List.getElem?_eq_getElem (by omega)]
      rfl
    -- the byte just moved up is not among those still to be read
    have htake : ∀ b, ((n.bytes.set (p.add (k + 1)).off b).drop p.off).take k =
        (n.bytes.drop p.off).take k := by
      intro b
      simp only [Ptr.add, List.drop_set, show ¬ p.off + (k + 1) < p.off by omega, if_false]
      rw [List.take_set_of_le (by omega)]
    simp only [Node.shiftUp, hread, hwrite, Option.bind_eq_bind, Option.bind_some, hrest, htake]
    rw [hoff, overwrite_set_last (by omega), hsnoc]

end Node

/-! ### Lists of lines -/

/-- The two nodes have the same links. -/
def SameLinks (n n' : Node) : Prop := n'.next = n.next ∧ n'.prev = n.prev

theorem SameLinks.trans {n n' n'' : Node} (h : SameLinks n n') (h' : SameLinks n' n'') :
    SameLinks n n'' :=
  ⟨h'.1.trans h.1, h'.2.trans h.2⟩

section Chain
variable {heap heap' : ℕ → Option Node}

/-- Every node is still there, with its links. -/
def KeepsLinks (heap heap' : ℕ → Option Node) (ids : List ℕ) : Prop :=
  ∀ i ∈ ids, ∀ n, heap i = some n → ∃ n', heap' i = some n' ∧ SameLinks n n'

theorem Chain.of_links {p : Option ℕ} {ids : List ℕ} (h : Chain heap p ids)
    (hl : KeepsLinks heap heap' ids) : Chain heap' p ids := by
  induction ids generalizing p with
  | nil => trivial
  | cons i is ih =>
    obtain ⟨n, hn, hprev, hnext, hc⟩ := h
    obtain ⟨n', hn', hlinks⟩ := hl i List.mem_cons_self n hn
    refine ⟨n', hn', hlinks.2.trans hprev, hlinks.1.trans hnext, ih hc fun j hj => ?_⟩
    exact hl j (List.mem_cons_of_mem i hj)

/-- The node `k` has come behind `c`, whose node was `n` and is `n'` now. -/
structure Inserted (heap heap' : ℕ → Option Node) (c k : ℕ) (n n' m : Node) : Prop where
  old : heap c = some n
  curr : heap' c = some n'
  prev : n'.prev = n.prev
  next : n'.next = some k
  new : heap' k = some m
  back : m.prev = some c
  forth : m.next = n.next
  rest : ∀ x y, x ≠ c → x ≠ k → heap x = some y →
    heap' x = some (if n.next = some x then { y with prev := some k } else y)

/-- The node `k` that stood behind `c` is gone. -/
structure Removed (heap heap' : ℕ → Option Node) (c k : ℕ) (n n' m : Node) : Prop where
  old : heap c = some n
  next : n.next = some k
  gone : heap k = some m
  curr : heap' c = some n'
  prev : n'.prev = n.prev
  forth : n'.next = m.next
  rest : ∀ x y, x ≠ c → x ≠ k → heap x = some y →
    heap' x = some (if m.next = some x then { y with prev := some c } else y)

/-- The head of the list gets a new predecessor. -/
theorem Chain.new_prev {p : Option ℕ} {c : ℕ} {ids : List ℕ} (h : Chain heap p ids)
    (hhead : ∀ j x, ids.head? = some j → heap j = some x → heap' j = some { x with prev := some c })
    (htail : KeepsLinks heap heap' ids.tail) : Chain heap' (some c) ids := by
  cases ids with
  | nil => trivial
  | cons i is =>
    obtain ⟨n, hn, -, hnext, hc⟩ := h
    exact ⟨_, hhead i n rfl hn, rfl, hnext, hc.of_links htail⟩

theorem KeepsLinks.of_eq {ids : List ℕ} (h : ∀ i ∈ ids, heap' i = heap i) :
    KeepsLinks heap heap' ids :=
  fun i hi n hn => ⟨n, (h i hi).trans hn, rfl, rfl⟩

/-- A change behind some point of the list. -/
theorem Chain.append {p : Option ℕ} {xs ys zs : List ℕ} (h : Chain heap p (xs ++ ys))
    (hhead : ys.head? = zs.head?) (hxs : KeepsLinks heap heap' xs)
    (hzs : ∀ q, Chain heap q ys → Chain heap' q zs) : Chain heap' p (xs ++ zs) := by
  induction xs generalizing p with
  | nil => exact hzs p h
  | cons i is ih =>
    obtain ⟨n, hn, hprev, hnext, hc⟩ := h
    obtain ⟨n', hn', hlinks⟩ := hxs i List.mem_cons_self n hn
    refine ⟨n', hn', hlinks.2.trans hprev, hlinks.1.trans (hnext.trans ?_), ih hc ?_⟩
    · cases is with
      | nil => exact hhead
      | cons => rfl
    · exact fun j hj => hxs j (List.mem_cons_of_mem i hj)

/-- The successor of a node in the middle of the list. -/
theorem Chain.next_eq {p : Option ℕ} {xs ys : List ℕ} {c : ℕ} {n : Node}
    (h : Chain heap p (xs ++ c :: ys)) (hn : heap c = some n) : n.next = ys.head? := by
  induction xs generalizing p with
  | nil =>
    obtain ⟨m, hm, -, hnext, -⟩ := h
    obtain rfl : m = n := by simpa [hm] using hn
    exact hnext
  | cons i is ih =>
    obtain ⟨_, -, -, -, hc⟩ := h
    exact ih hc

end Chain

/-- The text of a line. -/
def lineAt (heap : ℕ → Option Node) (i : ℕ) : List UInt8 := (heap i).elim [] Node.content

section Lines
variable {t : Prop} {heap heap' : ℕ → Option Node} {xs ys : List ℕ} {c k : ℕ} {n n' m : Node}

/-- What is behind the place of a change is the same but for one link back. -/
theorem Chain.behind {p : Option ℕ} {j : ℕ} (h : Chain heap p ys) (hnd : ys.Nodup)
    (hrest : ∀ x ∈ ys, ∀ y, heap x = some y →
      heap' x = some (if ys.head? = some x then { y with prev := some j } else y)) :
    Chain heap' (some j) ys := by
  refine h.new_prev (fun x y hx hy => ?_) fun x hx y hy => ?_
  · rw [hrest x (List.mem_of_head? hx) y hy, if_pos hx]
  · refine ⟨y, ?_, rfl, rfl⟩
    cases ys with
    | nil => simp at hx
    | cons i is =>
      rw [hrest x (List.mem_cons_of_mem i hx) y hy, if_neg]
      rintro ⟨⟩
      exact (List.nodup_cons.mp hnd).1 hx

/-- The parts of a list without duplicates, around one element. -/
theorem nodup_around {c : ℕ} (h : (xs ++ c :: ys).Nodup) :
    ys.Nodup ∧ (∀ x ∈ xs, x ≠ c) ∧ (∀ y ∈ ys, y ≠ c) ∧ ∀ x ∈ xs, x ∉ ys := by
  obtain ⟨-, hcys, hdis⟩ := List.nodup_append.mp h
  obtain ⟨hc, hys⟩ := List.nodup_cons.mp hcys
  exact ⟨hys, fun x hx => hdis x hx c List.mem_cons_self, fun y hy hyc => hc (hyc ▸ hy),
    fun x hx hxy => hdis x hx x (List.mem_cons_of_mem c hxy) rfl⟩

theorem Linked.next_ne_self {s : Editor} {ids : List ℕ} (h : Linked s ids) (hc : c ∈ ids)
    (hn : s.heap c = some n) : n.next ≠ some c := by
  obtain ⟨xs, ys, rfl⟩ := List.append_of_mem hc
  obtain ⟨-, -, hyc, -⟩ := nodup_around h.nodup
  rw [h.chain.next_eq hn]
  exact fun hhead => hyc c (List.mem_of_head? hhead) rfl

theorem nodup_insert (hk : k ∉ xs ++ c :: ys) (h : (xs ++ c :: ys).Nodup) :
    (xs ++ c :: k :: ys).Nodup := by
  have hmid : ((xs ++ [c]) ++ k :: ys).Perm (k :: ((xs ++ [c]) ++ ys)) := List.perm_middle
  have hperm : (xs ++ c :: k :: ys).Perm (k :: (xs ++ c :: ys)) := by simpa using hmid
  exact hperm.nodup_iff.mpr (List.nodup_cons.mpr ⟨hk, h⟩)

theorem Chain.insert {p : Option ℕ} (h : Chain heap p (xs ++ c :: ys)) (hnd : (xs ++ c :: ys).Nodup)
    (hi : Inserted heap heap' c k n n' m) (hk : k ∉ xs ++ c :: ys) :
    Chain heap' p (xs ++ c :: k :: ys) := by
  have hnext := h.next_eq hi.old
  obtain ⟨hys, hxc, hyc, hxy⟩ := nodup_around hnd
  have hne : ∀ x ∈ xs ++ c :: ys, x ≠ k := fun x hx hxk => hk (hxk ▸ hx)
  refine h.append rfl (fun x hx y hy => ?_) fun q hq => ?_
  · refine ⟨y, ?_, rfl, rfl⟩
    rw [hi.rest x y (hxc x hx) (hne x (by simp [hx])) hy, hnext, if_neg]
    exact fun hhead => hxy x hx (List.mem_of_head? hhead)
  · obtain ⟨n0, hn0, hprev, -, hc'⟩ := hq
    obtain rfl : n0 = n := by simpa [hi.old] using hn0.symm
    refine ⟨n', hi.curr, hi.prev.trans hprev, hi.next, m, hi.new, hi.back,
      hi.forth.trans hnext, hc'.behind hys fun x hx y hy => ?_⟩
    rw [hi.rest x y (hyc x hx) (hne x (by simp [hx])) hy, hnext]

theorem Lines.insert (h : Lines t heap (xs ++ c :: ys)) (hi : Inserted heap heap' c k n n' m)
    (hk : k ∉ xs ++ c :: ys) (hn' : NodeOk t n') (hm : NodeOk t m) :
    Lines t heap' (xs ++ c :: k :: ys) := by
  refine ⟨h.chain.insert h.nodup hi hk, nodup_insert hk h.nodup, fun x hx y hy => ?_⟩
  by_cases hxk : x = k
  · obtain rfl : m = y := by simpa [hxk, hi.new] using hy
    exact hm
  by_cases hxc : x = c
  · obtain rfl : n' = y := by simpa [hxc, hi.curr] using hy
    exact hn'
  have hmem : x ∈ xs ++ c :: ys := by simpa [hxk] using hx
  obtain ⟨z, hz, hok⟩ := h.exists_node hmem
  rw [hi.rest x z hxc hxk hz, Option.some.injEq] at hy
  subst hy
  split
  · exact ⟨hok.pos, hok.le, hok.size, hok.term⟩
  · exact hok

/-- The list without the element behind `c`. -/
theorem sublist_remove (xs ys : List ℕ) (c k : ℕ) : (xs ++ c :: ys).Sublist (xs ++ c :: k :: ys) :=
  (((List.Sublist.refl ys).cons k).cons_cons c).append_left xs

theorem ne_of_nodup_remove (h : (xs ++ c :: k :: ys).Nodup) {x : ℕ} (hx : x ∈ xs ++ c :: ys) :
    x ≠ k := by
  obtain ⟨-, hxk, hyk, -⟩ := nodup_around (show ((xs ++ [c]) ++ k :: ys).Nodup by simpa using h)
  rcases List.mem_append.mp (by simpa using hx : x ∈ (xs ++ [c]) ++ ys) with hx | hx
  · exact hxk x hx
  · exact hyk x hx

theorem Chain.remove {p : Option ℕ} (h : Chain heap p (xs ++ c :: k :: ys))
    (hnd : (xs ++ c :: k :: ys).Nodup) (hr : Removed heap heap' c k n n' m) :
    Chain heap' p (xs ++ c :: ys) := by
  have hnext : m.next = ys.head? :=
    (show Chain heap p ((xs ++ [c]) ++ k :: ys) by simpa using h).next_eq hr.gone
  obtain ⟨hys, hxc, hyc, hxy⟩ := nodup_around ((sublist_remove xs ys c k).nodup hnd)
  refine h.append rfl (fun x hx y hy => ?_) fun q hq => ?_
  · refine ⟨y, ?_, rfl, rfl⟩
    rw [hr.rest x y (hxc x hx) (ne_of_nodup_remove hnd (by simp [hx])) hy, hnext, if_neg]
    exact fun hhead => hxy x hx (List.mem_of_head? hhead)
  · obtain ⟨n0, hn0, hprev, -, _, _, _, _, hc'⟩ := hq
    obtain rfl : n0 = n := by simpa [hr.old] using hn0.symm
    refine ⟨n', hr.curr, hr.prev.trans hprev, hr.forth.trans hnext,
      hc'.behind hys fun x hx y hy => ?_⟩
    rw [hr.rest x y (hyc x hx) (ne_of_nodup_remove hnd (by simp [hx])) hy, hnext]

theorem Lines.remove (h : Lines t heap (xs ++ c :: k :: ys))
    (hr : Removed heap heap' c k n n' m) (hn' : NodeOk t n') : Lines t heap' (xs ++ c :: ys) := by
  have hsub := sublist_remove xs ys c k
  refine ⟨h.chain.remove h.nodup hr, hsub.nodup h.nodup, fun x hx y hy => ?_⟩
  by_cases hxc : x = c
  · obtain rfl : n' = y := by simpa [hxc, hr.curr] using hy
    exact hn'
  obtain ⟨z, hz, hok⟩ := h.exists_node (hsub.subset hx)
  rw [hr.rest x z hxc (ne_of_nodup_remove h.nodup hx) hz, Option.some.injEq] at hy
  subst hy
  split
  · exact ⟨hok.pos, hok.le, hok.size, hok.term⟩
  · exact hok

theorem Inserted.set_curr (h : Inserted heap heap' c k n n' m) (hck : c ≠ k) {x : Node}
    (hx : SameLinks n' x) : Inserted heap (Function.update heap' c (some x)) c k n x m where
  old := h.old
  curr := Function.update_self ..
  prev := hx.2.trans h.prev
  next := hx.1.trans h.next
  new := by rw [Function.update_of_ne hck.symm, h.new]
  back := h.back
  forth := h.forth
  rest y z hyc hyk hy := by rw [Function.update_of_ne hyc, h.rest y z hyc hyk hy]

theorem Inserted.set_new (h : Inserted heap heap' c k n n' m) (hck : c ≠ k) {x : Node}
    (hx : SameLinks m x) : Inserted heap (Function.update heap' k (some x)) c k n n' x where
  old := h.old
  curr := by rw [Function.update_of_ne hck, h.curr]
  prev := h.prev
  next := h.next
  new := Function.update_self ..
  back := hx.2.trans h.back
  forth := hx.1.trans h.forth
  rest y z hyc hyk hy := by rw [Function.update_of_ne hyk, h.rest y z hyc hyk hy]

theorem Inserted.lineAt_eq (h : Inserted heap heap' c k n n' m) {x : ℕ} {y : Node} (hc : x ≠ c)
    (hk : x ≠ k) (hy : heap x = some y) : lineAt heap' x = lineAt heap x := by
  rw [lineAt, lineAt, h.rest x y hc hk hy, hy]
  split <;> rfl

theorem Removed.lineAt_eq (h : Removed heap heap' c k n n' m) {x : ℕ} {y : Node} (hc : x ≠ c)
    (hk : x ≠ k) (hy : heap x = some y) : lineAt heap' x = lineAt heap x := by
  rw [lineAt, lineAt, h.rest x y hc hk hy, hy]
  split <;> rfl

/-- Following the links gives the text of the lines in order. -/
theorem Chain.linesFrom_eq {p : Option ℕ} {ids : List ℕ} (h : Chain heap p ids) {fuel : ℕ}
    (hfuel : ids.length < fuel) : linesFrom heap fuel ids.head? = ids.map (lineAt heap) := by
  induction ids generalizing p fuel with
  | nil => cases fuel <;> rfl
  | cons i is ih =>
    obtain ⟨fuel, rfl⟩ : ∃ f, fuel = f + 1 := ⟨fuel - 1, by omega⟩
    obtain ⟨n, hn, -, hnext, hc⟩ := h
    have hrest := ih hc (show is.length < fuel by simpa using hfuel)
    simp [linesFrom, hn, hnext, hrest, lineAt]

end Lines

/-! ### The text and the cursor -/

/-- The lines above, the cursor's line up to the cursor and from it on, and the lines below. -/
structure Zipper where
  before : List (List UInt8)
  left : List UInt8
  right : List UInt8
  after : List (List UInt8)

def Zipper.text (z : Zipper) : List (List UInt8) := z.before ++ (z.left ++ z.right) :: z.after

/-- The state holds this text, with the cursor at this place. -/
structure Shows (t : Prop) (s : Editor) (z : Zipper) (xs ys : List ℕ) (n : Node) : Prop where
  inv : Inv t s (xs ++ s.currLine :: ys) n
  before : xs.map (lineAt s.heap) = z.before
  after : ys.map (lineAt s.heap) = z.after
  line : n.content = z.left ++ z.right
  left : s.position = z.left.length + 1

/-- The block starts with the line, and its terminator if `t` asks for it. -/
structure Holds (t : Prop) (n : Node) (line rest : List UInt8) : Prop where
  bytes : n.bytes = line ++ rest
  length : n.lineLength = line.length + 1
  size : n.maxLength = line.length + rest.length
  room : rest ≠ []
  term : t → rest.head? = some 0

section Holds
variable {t : Prop} {n : Node} {line rest : List UInt8}

theorem Holds.ok (h : Holds t n line rest) : NodeOk t n := by
  obtain ⟨hbytes, hlen, hsize, hroom, hterm⟩ := h
  have hpos := List.length_pos_iff.mpr hroom
  refine ⟨by omega, by omega, ?_, fun ht => ?_⟩
  · rw [hbytes, List.length_append, hsize]
  · rw [hbytes, hlen, Nat.add_sub_cancel, List.getElem?_append_right (Nat.le_refl _), Nat.sub_self,
      ← List.head?_eq_getElem?]
    exact hterm ht

theorem Holds.content (h : Holds t n line rest) : n.content = line := by
  rw [Node.content, h.bytes, h.length, Nat.add_sub_cancel, List.take_left]

theorem NodeOk.length_content (h : NodeOk t n) : n.content.length = n.lineLength - 1 := by
  obtain ⟨-, hle, hsize, -⟩ := h
  rw [Node.content, List.length_take]
  omega

theorem NodeOk.exists_holds (h : NodeOk t n) : ∃ rest, Holds t n n.content rest := by
  have hlen := h.length_content
  obtain ⟨hpos, hle, hsize, hterm⟩ := h
  have hdrop : (n.bytes.drop (n.lineLength - 1)).length = n.maxLength - (n.lineLength - 1) := by
    rw [List.length_drop, hsize]
  refine ⟨n.bytes.drop (n.lineLength - 1), ?_, by omega, by omega, ?_, fun ht => ?_⟩
  · exact (List.take_append_drop _ _).symm
  · exact List.length_pos_iff.mp (by omega)
  · rw [List.head?_drop]
    exact hterm ht

end Holds

section Shows
variable {t : Prop} {s s' : Editor} {z z' : Zipper} {xs ys ids : List ℕ} {n n' : Node}

theorem Inv.exists_shows (h : Inv t s ids n) : ∃ z xs ys, ids = xs ++ s.currLine :: ys ∧
    Shows t s z xs ys n := by
  obtain ⟨xs, ys, rfl⟩ := List.append_of_mem h.mem
  have hpos := h.pos
  have hle := h.le
  have hlen := h.node_ok.length_content
  refine ⟨⟨xs.map (lineAt s.heap), n.content.take (s.position - 1),
    n.content.drop (s.position - 1), ys.map (lineAt s.heap)⟩, xs, ys, rfl, h, rfl, rfl, ?_, ?_⟩
  · exact (List.take_append_drop _ _).symm
  · rw [List.length_take]
    omega

/-- Every line has an address of its own below `fresh`. -/
theorem Linked.length_le (h : Linked s ids) : ids.length ≤ s.fresh := by
  have hsub : ids ⊆ List.range s.fresh := fun i hi => List.mem_range.mpr (h.bound i hi)
  simpa using (List.subperm_of_subset h.nodup hsub).length_le

theorem Listed.text_eq (h : Listed t s ids) : s.text = ids.map (lineAt s.heap) := by
  have hlen := (⟨h.lines.chain, h.lines.nodup, h.first, h.bound⟩ : Linked s ids).length_le
  rw [Editor.text, ← h.first]
  exact h.lines.chain.linesFrom_eq (by omega)

theorem Shows.text_eq (h : Shows t s z xs ys n) : s.text = z.text := by
  rw [h.inv.listed.text_eq, List.map_append, List.map_cons, h.before, h.after, lineAt, h.inv.curr]
  exact congrArg (fun l => z.before ++ l :: z.after) h.line

theorem Shows.consistent (h : Shows t s z xs ys n) : Consistent t s := ⟨_, n, h.inv⟩

theorem Shows.of_core (h : Shows t s z xs ys n) (hs : s'.core = s.core) : Shows t s' z xs ys n := by
  have hinv := h.inv.of_core hs
  simp only [Editor.core, Prod.mk.injEq] at hs
  obtain ⟨hheap, -, -, hcurr, -, hpos, -⟩ := hs
  exact ⟨hcurr ▸ hinv, hheap ▸ h.before, hheap ▸ h.after, h.line, hpos ▸ h.left⟩

theorem Shows.exists_holds (h : Shows t s z xs ys n) :
    ∃ rest, Holds t n (z.left ++ z.right) rest := h.line ▸ h.inv.node_ok.exists_holds

theorem Shows.lineLength_eq (h : Shows t s z xs ys n) :
    n.lineLength = z.left.length + z.right.length + 1 := by
  obtain ⟨rest, hold⟩ := h.exists_holds
  rw [hold.length, List.length_append]

theorem Shows.point_eq (h : Shows t s z xs ys n) : s.point = ⟨n.line, z.left.length⟩ := by
  rw [h.inv.point, h.left, Nat.add_sub_cancel]

/-- The node of the current line is replaced in place. -/
theorem Shows.replace (h : Shows t s z xs ys n) {t' : Prop} (ht : t' → t) {rest : List UInt8}
    (hheap : s'.heap = Function.update s.heap s.currLine (some n')) (hlinks : SameLinks n n')
    (hold : Holds t' n' (z'.left ++ z'.right) rest) (hcurr : s'.currLine = s.currLine)
    (hfirst : s'.firstLine = s.firstLine) (hfresh : s.fresh ≤ s'.fresh)
    (hnarrow : s'.eeChinese = s.eeChinese) (hpoint : s'.point = ⟨n'.line, z'.left.length⟩)
    (hleft : s'.position = z'.left.length + 1) (hbefore : z'.before = z.before)
    (hafter : z'.after = z.after) : Shows t' s' z' xs ys n' := by
  obtain ⟨-, hxc, hyc, -⟩ := nodup_around h.inv.lines.nodup
  have hself : s'.heap s.currLine = some n' := by rw [hheap, Function.update_self]
  have hne : ∀ x, x ≠ s.currLine → s'.heap x = s.heap x := fun x hx => by
    rw [hheap, Function.update_of_ne hx]
  have hat : ∀ ids : List ℕ, (∀ x ∈ ids, x ≠ s.currLine) →
      ids.map (lineAt s'.heap) = ids.map (lineAt s.heap) := fun ids hids =>
    List.map_congr_left fun x hx => by rw [lineAt, lineAt, hne x (hids x hx)]
  have hlen : n'.lineLength = (z'.left ++ z'.right).length + 1 := hold.length
  rw [List.length_append] at hlen
  have hlines : Lines t' s'.heap (xs ++ s.currLine :: ys) := by
    refine ⟨h.inv.lines.chain.of_links fun x _ y hy => ?_, h.inv.lines.nodup, fun x hx y hy => ?_⟩
    · by_cases hx : x = s.currLine
      · subst hx
        obtain rfl : n = y := by simpa [h.inv.curr] using hy
        exact ⟨n', hself, hlinks⟩
      · exact ⟨y, (hne x hx).trans hy, rfl, rfl⟩
    · by_cases hxc : x = s.currLine
      · obtain rfl : n' = y := by simpa [hxc, hself] using hy
        exact hold.ok
      · have hok := h.inv.lines.ok x hx y ((hne x hxc).symm.trans hy)
        exact ⟨hok.pos, hok.le, hok.size, hok.term ∘ ht⟩
  refine ⟨?_, ?_, ?_, hold.content, hleft⟩
  · rw [hcurr]
    refine ⟨hlines, ?_, fun x hx => ?_, ?_, ?_, ?_, ?_, ?_, ?_⟩
    · exact hfirst ▸ h.inv.first
    · exact Nat.lt_of_lt_of_le (h.inv.bound x hx) hfresh
    · exact hcurr ▸ h.inv.mem
    · exact hcurr ▸ hself
    · omega
    · omega
    · rw [hpoint, hleft, Nat.add_sub_cancel]
    · exact hnarrow ▸ h.inv.narrow
  · rw [hat xs hxc, hbefore, h.before]
  · rw [hat ys hyc, hafter, h.after]

/-- A new line behind the current one becomes the current one. -/
theorem Shows.insert (h : Shows t s z xs ys n) {k : ℕ} {m : Node} {rest : List UInt8}
    (hi : Inserted s.heap s'.heap s.currLine k n n' m) (hk : s.fresh ≤ k) (hok : NodeOk t n')
    (hold : Holds t m (z'.left ++ z'.right) rest) (hcurr : s'.currLine = k)
    (hfirst : s'.firstLine = s.firstLine) (hfresh : k < s'.fresh)
    (hnarrow : s'.eeChinese = s.eeChinese) (hpoint : s'.point = ⟨m.line, z'.left.length⟩)
    (hleft : s'.position = z'.left.length + 1) (hbefore : z'.before = z.before ++ [n'.content])
    (hafter : z'.after = z.after) : Shows t s' z' (xs ++ [s.currLine]) ys m := by
  obtain ⟨-, hxc, hyc, -⟩ := nodup_around h.inv.lines.nodup
  have hlt : ∀ x ∈ xs ++ s.currLine :: ys, x < k := fun x hx =>
    Nat.lt_of_lt_of_le (h.inv.bound x hx) hk
  have hnew : k ∉ xs ++ s.currLine :: ys := fun hmem => Nat.lt_irrefl k (hlt k hmem)
  have hlines := h.inv.lines.insert hi hnew hok hold.ok
  have hat : ∀ x ∈ xs ++ s.currLine :: ys, x ≠ s.currLine → lineAt s'.heap x = lineAt s.heap x := by
    intro x hx hxc
    obtain ⟨y, hy, -⟩ := h.inv.lines.exists_node hx
    exact hi.lineAt_eq hxc (fun hxk => hnew (hxk ▸ hx)) hy
  have hlen : m.lineLength = (z'.left ++ z'.right).length + 1 := hold.length
  rw [List.length_append] at hlen
  have hids : xs ++ [s.currLine] ++ s'.currLine :: ys = xs ++ s.currLine :: k :: ys := by simp [hcurr]
  refine ⟨?_, ?_, ?_, hold.content, hleft⟩
  · rw [hids]
    refine ⟨hlines, ?_, fun x hx => ?_, ?_, ?_, ?_, ?_, ?_, ?_⟩
    · rw [hfirst, ← h.inv.first]
      cases xs <;> rfl
    · have hxk : x ≤ k := by
        rcases List.mem_append.mp hx with hx | hx
        · exact Nat.le_of_lt (hlt x (by simp [hx]))
        · rcases List.mem_cons.mp hx with rfl | hx
          · exact Nat.le_of_lt (hlt _ h.inv.mem)
          · rcases List.mem_cons.mp hx with rfl | hx
            · exact Nat.le_refl _
            · exact Nat.le_of_lt (hlt x (by simp [hx]))
      omega
    · rw [hcurr]
      simp
    · rw [hcurr]
      exact hi.new
    · omega
    · omega
    · rw [hpoint, hleft, Nat.add_sub_cancel]
    · exact hnarrow ▸ h.inv.narrow
  · have hmap : xs.map (lineAt s'.heap) = xs.map (lineAt s.heap) :=
      List.map_congr_left fun x hx => hat x (by simp [hx]) (hxc x hx)
    rw [List.map_append, hmap, h.before, hbefore, List.map_singleton, lineAt, hi.curr]
    rfl
  · have hmap : ys.map (lineAt s'.heap) = ys.map (lineAt s.heap) :=
      List.map_congr_left fun x hx => hat x (by simp [hx]) (hyc x hx)
    rw [hmap, h.after, hafter]

/-- The current line is taken away and the one before it becomes the current one. -/
theorem Shows.remove {p : ℕ} {m m' : Node} {rest : List UInt8} (h : Shows t s z (xs ++ [p]) ys n)
    (hr : Removed s.heap s'.heap p s.currLine m m' n)
    (hold : Holds t m' (z'.left ++ z'.right) rest) (hcurr : s'.currLine = p)
    (hfirst : s'.firstLine = s.firstLine) (hfresh : s.fresh ≤ s'.fresh)
    (hnarrow : s'.eeChinese = s.eeChinese) (hpoint : s'.point = ⟨m'.line, z'.left.length⟩)
    (hleft : s'.position = z'.left.length + 1) (hbefore : z.before = z'.before ++ [m.content])
    (hafter : z'.after = z.after) : Shows t s' z' xs ys m' := by
  have hids : xs ++ [p] ++ s.currLine :: ys = xs ++ p :: s.currLine :: ys := by simp
  have hsub : (xs ++ p :: ys).Sublist (xs ++ p :: s.currLine :: ys) :=
    (((List.Sublist.refl ys).cons s.currLine).cons_cons p).append_left xs
  have hinv := h.inv
  rw [hids] at hinv
  have hlines := hinv.lines.remove hr hold.ok
  obtain ⟨-, hxc, hyc, -⟩ := nodup_around hlines.nodup
  obtain ⟨-, hxk, hyk, -⟩ := nodup_around h.inv.lines.nodup
  have hat : ∀ x ∈ xs ++ p :: ys, x ≠ p → x ≠ s.currLine → lineAt s'.heap x = lineAt s.heap x := by
    intro x hx hxp hxc
    obtain ⟨y, hy, -⟩ := hinv.lines.exists_node (hsub.subset hx)
    exact hr.lineAt_eq hxp hxc hy
  have hlen : m'.lineLength = (z'.left ++ z'.right).length + 1 := hold.length
  rw [List.length_append] at hlen
  refine ⟨?_, ?_, ?_, hold.content, hleft⟩
  · rw [hcurr]
    refine ⟨hlines, ?_, fun x hx => ?_, ?_, ?_, ?_, ?_, ?_, ?_⟩
    · rw [hfirst, ← hinv.first]
      cases xs <;> rfl
    · exact Nat.lt_of_lt_of_le (hinv.bound x (hsub.subset hx)) hfresh
    · rw [hcurr]
      simp
    · rw [hcurr]
      exact hr.curr
    · omega
    · omega
    · rw [hpoint, hleft, Nat.add_sub_cancel]
    · exact hnarrow ▸ h.inv.narrow
  · have hmap : xs.map (lineAt s'.heap) = xs.map (lineAt s.heap) :=
      List.map_congr_left fun x hx => hat x (by simp [hx]) (hxc x hx) (hxk x (by simp [hx]))
    have hb := h.before
    rw [List.map_append, hbefore] at hb
    rw [hmap]
    exact (List.append_inj' hb rfl).1
  · have hmap : ys.map (lineAt s'.heap) = ys.map (lineAt s.heap) :=
      List.map_congr_left fun x hx => hat x (by simp [hx]) (hyc x hx) (hyk x hx)
    rw [hmap, h.after, hafter]

end Shows

end BsdAdditions.Ee
