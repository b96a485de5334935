import BsdAdditions.Ee.Zipper

/-! Editing as a change of the text and the cursor in it. -/
namespace BsdAdditions.Ee
open Common Common.Prog

/-- The state without the lines, the cursor and the screen, and without what is remembered from
one character to the next. -/
def Editor.bare (s : Editor) : Editor :=
  { s.still with heap := fun _ => none, fresh := 0, formatted := false, dChar := [], inChar := 0 }

/-- What stands outside of the text and the cursor stays. -/
def Touches (s s' : Editor) : Prop := s.bare = s'.bare

instance : IsPreorder Editor Touches where
  refl _ := rfl
  trans _ _ _ := Eq.trans

theorem Touches.of_moves {s s' : Editor} (h : Moves s s') : Touches s s' :=
  congrArg (fun s : Editor => ({ s with
    heap := fun _ => none, fresh := 0, formatted := false, dChar := [], inChar := 0 } : Editor)) h

/-- The text may have changed, and is marked so. -/
def Edited (s s' : Editor) : Prop := Touches { s with textChanges := true } s'

theorem Edited.touches {s s' s'' : Editor} (h : Edited s s') (h' : Touches s' s'') :
    Edited s s'' :=
  h.trans h'

theorem Touches.marked {s s' : Editor} (h : Touches s s') :
    Touches { s with textChanges := true } { s' with textChanges := true } := by
  have hs := congrArg (fun u : Editor => ({ u with textChanges := true } : Editor)) h
  exact hs

theorem Edited.of_moves {s s' s'' : Editor} (h : Moves s s') (h' : Edited s' s'') : Edited s s'' :=
  (Touches.of_moves h).marked.trans h'

/-- Marking a change once more. -/
theorem Edited.again {s s' s'' : Editor} (h : Edited s s') (h' : Edited s' s'') : Edited s s'' :=
  (Touches.marked h).trans h'

/-- Only memory changes, and what was allocated stays so. -/
structure Allocates (s s' : Editor) : Prop where
  eq : s' = { s with heap := s'.heap, fresh := s'.fresh }
  fresh : s.fresh ≤ s'.fresh

theorem Allocates.trans {s s' s'' : Editor} (h : Allocates s s') (h' : Allocates s' s'') :
    Allocates s s'' := by
  refine ⟨?_, Nat.le_trans h.fresh h'.fresh⟩
  rw [h'.eq, h.eq]

namespace Allocates
variable {s s' : Editor} (h : Allocates s s')
include h

theorem currLine : s'.currLine = s.currLine := by rw [h.eq]

theorem point : s'.point = s.point := by rw [h.eq]

theorem position : s'.position = s.position := by rw [h.eq]

theorem tmpLine : s'.tmpLine = s.tmpLine := by rw [h.eq]

theorem firstLine : s'.firstLine = s.firstLine := by rw [h.eq]

theorem eeChinese : s'.eeChinese = s.eeChinese := by rw [h.eq]

theorem touches : Touches s s' := by
  rw [h.eq]
  rfl

end Allocates

theorem Allocates.setNode (s : Editor) (i : ℕ) (n : Node) : Allocates s (s.setNode i n) :=
  ⟨rfl, Nat.le_refl _⟩

variable {t : Prop} {s : Editor} {z : Zipper} {xs ys : List ℕ} {n : Node}

/-! ### Memory -/

@[simp] theorem length_malloc (h : Host) (block size : ℕ) : (h.malloc block size).length = size := by
  simp [Host.malloc]

theorem realloc_grow (h : Host) (block : ℕ) (bytes : List UInt8) (k : ℕ) :
    ∃ junk, junk.length = k ∧ h.realloc block bytes (bytes.length + k) = bytes ++ junk := by
  refine ⟨(h.malloc block (bytes.length + k)).drop bytes.length, by simp, ?_⟩
  rw [Host.realloc, List.take_of_length_le (Nat.le_add_right _ _)]

theorem wp_resizLine {post : Ptr → Editor → Prop} {i : ℕ} (hn : s.heap i = some n) (factor : ℤ)
    (rpos : ℕ) : wp (resizLine factor i rpos) post s ↔ post ⟨s.fresh, rpos - 1⟩
      { s with heap := Function.update s.heap i (some { n with
                 line := s.fresh
                 bytes := s.host.realloc s.fresh n.bytes (n.maxLength + factor).toNat
                 maxLength := (n.maxLength + factor).toNat }),
               fresh := s.fresh + 1 } := by
  simp only [resizLine, wp_bind, wp_node hn, wp_get, setNode, wp_modify, wp_pure, Editor.setNode]

/-- A larger block holds the same line. -/
theorem Holds.grow {line rest : List UInt8} (h : Holds t n line rest) (host : Host) (block k : ℕ) :
    ∃ rest', rest'.length = rest.length + k ∧ Holds t { n with
      line := block
      bytes := host.realloc block n.bytes (n.maxLength + (k : ℤ)).toNat
      maxLength := (n.maxLength + (k : ℤ)).toNat } line rest' := by
  obtain ⟨hbytes, hlen, hsize, hroom, hterm⟩ := h
  have hmax : (n.maxLength + (k : ℤ)).toNat = n.bytes.length + k := by
    rw [hbytes, List.length_append]
    omega
  obtain ⟨junk, hjunk, heq⟩ := realloc_grow host block n.bytes k
  refine ⟨rest ++ junk, by simp [hjunk], ?_, hlen, ?_, by simp [hroom], fun ht => ?_⟩
  · rw [hmax]
    exact heq.trans (by rw [hbytes, List.append_assoc])
  · simp only [hmax, hbytes, List.length_append, hjunk]
    omega
  · rw [List.head?_append_of_ne_nil _ hroom]
    exact hterm ht

theorem Holds.wp_resizLine {line rest : List UInt8} (h : Holds t n line rest) {i : ℕ}
    (hn : s.heap i = some n) (k rpos : ℕ) {post : Ptr → Editor → Prop}
    (hpost : ∀ s' n' rest', Allocates s s' → s'.heap = Function.update s.heap i (some n') →
      SameLinks n n' → n'.maxLength = n.maxLength + k → rest'.length = rest.length + k →
      Holds t n' line rest' → post ⟨n'.line, rpos - 1⟩ s') :
    wp (resizLine k i rpos) post s := by
  obtain ⟨rest', hlen, hold⟩ := h.grow s.host s.fresh k
  rw [Ee.wp_resizLine hn]
  refine hpost _ { n with
    line := s.fresh
    bytes := s.host.realloc s.fresh n.bytes (n.maxLength + (k : ℤ)).toNat
    maxLength := (n.maxLength + (k : ℤ)).toNat } rest' ⟨rfl, Nat.le_succ _⟩ rfl ⟨rfl, rfl⟩ ?_ hlen hold
  dsimp only
  omega

theorem Shows.wp_grow (h : Shows t s z xs ys n) (k : ℕ) {post : Unit → Editor → Prop}
    (hpost : ∀ s' n', Shows t s' z xs ys n' → n'.maxLength = n.maxLength + k → Touches s s' →
      s'.currLine = s.currLine → post () s') :
    wp (do setPoint (← resizLine k s.currLine s.position)) post s := by
  obtain ⟨rest, hold⟩ := h.exists_holds
  rw [wp_bind]
  refine hold.wp_resizLine h.inv.curr k _ fun s' n' rest' hs' hheap hlinks hmax _ hold' => ?_
  rw [setPoint, wp_modify]
  refine hpost _ n' ?_ hmax hs'.touches hs'.currLine
  refine h.replace id hheap hlinks hold' hs'.currLine hs'.firstLine hs'.fresh hs'.eeChinese ?_
    (hs'.position.trans h.left) rfl rfl
  simp only [h.left, Nat.add_sub_cancel]

/-- Writing a node back into the current line. -/
theorem wp_setCurr {post : Unit → Editor → Prop} {n' : Node} :
    wp (setCurr n') post s ↔ post () (s.setNode s.currLine n') := by
  simp only [setCurr, setNode, wp_bind, wp_get, wp_modify]

/-! ### Typing a byte -/

theorem Holds.insertByte {l r rest : List UInt8} (h : Holds t n (l ++ r) rest) (b : UInt8)
    (hroom : n.lineLength + 5 ≤ n.maxLength) :
    ∃ n' rest', n.insertByte ⟨n.line, l.length⟩ (l.length + 1) b = some n' ∧ SameLinks n n' ∧
      n'.line = n.line ∧ Holds t n' (l ++ b :: r) rest' := by
  obtain ⟨hbytes, hlen, hsize, -, hterm⟩ := h
  rw [List.length_append] at hlen hsize
  obtain ⟨x, y, w, rest, rfl⟩ : ∃ x y w rest', rest = x :: y :: w :: rest' := by
    match rest with
    | [] | [_] | [_, _] => simp at hsize; omega
    | x :: y :: w :: rest' => exact ⟨x, y, w, rest', rfl⟩
  have hcount : n.lineLength + 1 - (l.length + 1) + 1 = r.length + 2 := by omega
  have hlong : l.length + (r.length + 2) < n.bytes.length := by simp [hbytes]
  have hrun : (n.bytes.drop l.length).take (r.length + 2) = r ++ [x, y] := by
    rw [hbytes, List.append_assoc, List.drop_left, List.take_append, List.take_of_length_le (by omega)]
    simp
  -- the byte under the cursor, which is written over, and the run that follows it
  obtain ⟨c, q, hq⟩ : ∃ c q, r ++ [x, y, w] = c :: q := by
    cases r with
    | nil => exact ⟨x, [y, w], rfl⟩
    | cons c r => exact ⟨c, r ++ [x, y, w], rfl⟩
  have hqlen : q.length = (r ++ [x, y]).length := by
    have := congrArg List.length hq
    simp at this ⊢
    omega
  have hsplit : n.bytes = (l ++ [c]) ++ (q ++ rest) := by
    rw [hbytes, List.append_assoc l [c], ← List.append_assoc [c], List.singleton_append, ← hq]
    simp
  have hover : overwrite n.bytes (l.length + 1) (r ++ [x, y]) = l ++ c :: (r ++ x :: y :: rest) := by
    rw [hsplit, show l.length + 1 = (l ++ [c]).length by simp, overwrite_append _ _ _ hqlen]
    simp
  refine ⟨{ n with lineLength := n.lineLength + 1, bytes := l ++ b :: (r ++ x :: y :: rest) },
    x :: y :: rest, ?_, ⟨rfl, rfl⟩, rfl, ?_⟩
  · have hshift := Node.shiftUp_eq (n := { n with lineLength := n.lineLength + 1 })
      (p := ⟨n.line, l.length⟩) rfl hlong
    simp only [hrun, hover] at hshift
    simp only [Node.insertByte, hcount, hshift, Option.bind_eq_bind, Option.bind_some]
    rw [Node.write_eq rfl (by simp)]
    simp
  · refine ⟨by simp, by simp [hlen]; omega, ?_, by simp, hterm⟩
    simp only [hsize, List.length_append, List.length_cons]
    omega

theorem Shows.wp_putByte (h : Shows t s z xs ys n) (b : UInt8) :
    wp (putByte b) (fun _ s' => ∃ n', Shows t s' { z with right := b :: z.right } xs ys n' ∧
      Touches s s') s := by
  have hput : ∀ s1 n1, Shows t s1 z xs ys n1 → n1.lineLength + 5 ≤ n1.maxLength → Touches s s1 →
      wp (do
        let s ← get
        setCurr (← orFault ((← curr).insertByte s.point s.position b)))
        (fun _ s' => ∃ n', Shows t s' { z with right := b :: z.right } xs ys n' ∧ Touches s s') s1 := by
    intro s1 n1 h1 hroom hs1
    obtain ⟨rest, hold⟩ := h1.exists_holds
    obtain ⟨n2, rest', hins, hlinks, hline, hold'⟩ := hold.insertByte b hroom
    rw [← h1.point_eq, ← h1.left] at hins
    simp only [wp_bind, wp_get, wp_curr h1.inv.curr, hins, wp_orFault_some, wp_setCurr]
    refine ⟨n2, h1.replace id rfl hlinks hold' rfl rfl (Nat.le_refl _) rfl ?_ h1.left rfl rfl, hs1⟩
    rw [hline]
    exact h1.point_eq
  simp only [putByte]
  rw [wp_bind, wp_get, wp_bind, wp_curr h.inv.curr, wp_bind]
  refine wp_onlyIf (fun _ => ?_) fun hroom => hput s n h (by omega) rfl
  refine h.wp_grow 10 fun s1 n1 h1 hmax hs1 _ => hput s1 n1 h1 ?_ hs1
  have hle := h.inv.node_ok.le
  rw [hmax, h1.lineLength_eq, ← h.lineLength_eq]
  omega

/-! ### Deleting a byte -/

/-- The bytes behind a run move down over it, the terminator's place included. -/
theorem Holds.deleteRun {l w r rest : List UInt8} (h : Holds t n (l ++ w ++ r) rest) :
    ∃ n' rest', ({ n with lineLength := n.lineLength - w.length } : Node).copyDown
        ⟨n.line, l.length⟩ ⟨n.line, l.length + w.length⟩
        (n.lineLength - w.length + 1 - (l.length + 1)) = some n' ∧
      SameLinks n n' ∧ n'.line = n.line ∧ Holds t n' (l ++ r) rest' := by
  obtain ⟨hbytes, hlen, hsize, hroom, hterm⟩ := h
  obtain ⟨x, rest, rfl⟩ := List.exists_cons_of_ne_nil hroom
  simp only [List.length_append] at hlen hsize
  have hcount : n.lineLength - w.length + 1 - (l.length + 1) = r.length + 1 := by omega
  have hrun : (n.bytes.drop (l.length + w.length)).take (r.length + 1) = r ++ [x] := by
    rw [hbytes, ← List.length_append, List.append_assoc (l ++ w), List.drop_left, List.take_append,
      List.take_of_length_le (by omega)]
    simp
  -- what is overwritten is as long as what is copied; behind it old bytes remain
  obtain ⟨old, tail, hsplit, hold⟩ : ∃ old tail, w ++ r ++ x :: rest = old ++ tail ∧
      old.length = (r ++ [x]).length := by
    refine ⟨(w ++ r ++ x :: rest).take (r.length + 1), (w ++ r ++ x :: rest).drop (r.length + 1),
      (List.take_append_drop _ _).symm, ?_⟩
    simp only [List.length_take, List.length_append, List.length_cons, List.length_nil]
    omega
  have hover : overwrite n.bytes l.length (r ++ [x]) = l ++ r ++ x :: tail := by
    rw [hbytes, show l ++ w ++ r ++ x :: rest = l ++ (w ++ r ++ x :: rest) by simp, hsplit,
      overwrite_append _ _ _ hold]
    simp
  have htail : tail.length = w.length + rest.length := by
    have := congrArg List.length hsplit
    simp only [List.length_append, List.length_cons, List.length_nil] at this hold
    omega
  refine ⟨{ n with lineLength := n.lineLength - w.length, bytes := l ++ r ++ x :: tail },
    x :: tail, ?_, ⟨rfl, rfl⟩, rfl, rfl, ?_, ?_, by simp, hterm⟩
  · rw [hcount, Node.copyDown_eq rfl rfl (Nat.le_add_right _ _) (by simp [hbytes]; omega)]
    simp only [hrun, hover]
  · simp only [List.length_append]
    omega
  · simp only [hsize, List.length_append, List.length_cons, htail]
    omega

theorem Holds.deleteByte {l r rest : List UInt8} {b : UInt8} (h : Holds t n (l ++ b :: r) rest) :
    ∃ n' rest', ({ n with lineLength := n.lineLength - 1 } : Node).copyDown ⟨n.line, l.length⟩
        ⟨n.line, l.length + 1⟩ (n.lineLength - 1 + 1 - (l.length + 1)) = some n' ∧
      SameLinks n n' ∧ n'.line = n.line ∧ Holds t n' (l ++ r) rest' := by
  have h' : Holds t n (l ++ [b] ++ r) rest := by simpa using h
  exact h'.deleteRun

/-- The screen may move, the cursor does not. -/
def Rests (s s' : Editor) : Prop :=
  Moves s s' ∧ s'.currLine = s.currLine ∧ s'.point = s.point ∧ s'.position = s.position

theorem Rests.of_scrolls {s s' : Editor} (h : Scrolls s s') : Rests s s' := by
  obtain ⟨_, _, _, rfl⟩ := h
  exact ⟨rfl, rfl, rfl, rfl⟩

theorem Rests.core {s s' : Editor} (h : Rests s s') : s'.core = s.core := by
  obtain ⟨hm, hc, hp, hpos⟩ := h
  simp only [Editor.core, hm.heap, hm.fresh, hm.firstLine, hm.eeChinese, hc, hp, hpos]

theorem Inv.wp_columnBack {ids : List ℕ} (h : Inv t s ids n) (fuel width : ℕ) :
    wp (columnBack fuel width) (fun _ s' => Rests s s') s := by
  simp only [columnBack, wp_bind, wp_get, wp_deref h.curr h.block h.off_lt]
  refine wp_ite (fun _ => ?_) fun _ => ⟨rfl, rfl, rfl, rfl⟩
  rw [wp_bind]
  refine h.wp_scanline fuel rfl fun s' hs _ => ?_
  obtain ⟨_, _, _, rfl⟩ := hs
  exact ⟨rfl, rfl, rfl, rfl⟩

/-- What `d_char` holds once a deleted character has been offered to it. -/
def Editor.saved (s : Editor) (bs : List UInt8) : List UInt8 :=
  if s.inChar = 8 then bs ++ [0] ++ s.dChar.drop (bs.length + 1) else s.dChar

theorem wp_saveChar (bs : List UInt8) {post : Unit → Editor → Prop} :
    wp (saveChar bs) post s ↔ post () { s with dChar := s.saved bs } := by
  rw [saveChar, wp_bind, wp_get, onlyIf, Editor.saved]
  split <;> rfl

/-- The scrolling at the end of `delete` and of `insert`. -/
theorem Shows.wp_midscreen (h : Shows t s z xs ys n) (fuel : ℕ) (offset : ℤ)
    {post : Unit → Editor → Prop} (hpost : ∀ s', Rests s s' → Shows t s' z xs ys n → post () s') :
    wp (do
      set { s with horizOffset := offset }
      midscreen fuel s.scrVert s.point) post s := by
  have h1 : Inv t { s with horizOffset := offset } (xs ++ s.currLine :: ys) n := h.inv.of_core rfl
  rw [wp_bind, wp_set]
  refine h1.wp_midscreen fuel _ rfl fun s' hs => ?_
  have hr : Rests s s' := by
    obtain ⟨_, _, _, rfl⟩ := hs
    exact ⟨rfl, rfl, rfl, rfl⟩
  exact hpost s' hr (h.of_core hr.core)

theorem wp_markChanged {post : Unit → Editor → Prop}
    (hpost : ∀ s', s'.core = s.core → s'.tmpLine = s.tmpLine → Edited s s' → post () s') :
    wp markChanged post s :=
  hpost _ rfl rfl rfl

section Bytes
variable {bs as : List (List UInt8)} {l r : List UInt8} {b : UInt8}

/-- A step back over one byte. -/
theorem Shows.wp_retreat (h : Shows t s ⟨bs, l ++ [b], r, as⟩ xs ys n) {post : Unit → Editor → Prop}
    (hpost : ∀ s', Shows t s' ⟨bs, l, b :: r, as⟩ xs ys n → Moves s s' → post () s') :
    wp (retreat 1) post s := by
  have hpos : s.position = l.length + 2 := by simpa using h.left
  have hoff : s.point = ⟨n.line, l.length + 1⟩ := by simpa using h.point_eq
  have hle := h.inv.le
  refine (Ee.wp_retreat (by rw [hoff]; exact Nat.le_add_left 1 _)).mpr (hpost _ ?_ rfl)
  refine ⟨h.inv.move rfl h.inv.mem h.inv.curr ?_ ?_ ?_, h.before, h.after, ?_, ?_⟩
  · simp only
    omega
  · simp only
    omega
  · simp only [hoff, hpos]
    rfl
  · rw [h.line]
    simp
  · simp only
    omega

/-- A step forward over one byte. -/
theorem Shows.wp_advance (h : Shows t s ⟨bs, l, b :: r, as⟩ xs ys n) {post : Unit → Editor → Prop}
    (hpost : ∀ s', Shows t s' ⟨bs, l ++ [b], r, as⟩ xs ys n → Moves s s' → post () s') :
    wp (advance 1) post s := by
  have hpos : s.position = l.length + 1 := h.left
  have hlen := h.lineLength_eq
  simp only [List.length_cons] at hlen
  refine hpost _ ⟨h.inv.advance (by omega), h.before, h.after, ?_, ?_⟩ rfl
  · rw [h.line]
    simp
  · simp only [List.length_append, List.length_singleton]
    omega

/-- A line whose last bytes have been cut off, with no terminator yet in their place. -/
theorem Holds.cut {line tail rest : List UInt8} (h : Holds t n (line ++ tail) rest) :
    ∃ rest', Holds False { n with lineLength := n.lineLength - tail.length } line rest' := by
  obtain ⟨hbytes, hlen, hsize, hroom, -⟩ := h
  rw [List.length_append] at hlen hsize
  refine ⟨tail ++ rest, ?_, ?_, ?_, by simp [hroom], False.elim⟩
  · rw [← List.append_assoc]
    exact hbytes
  · simp only
    omega
  · simp only [List.length_append]
    omega

theorem Shows.wp_deleteInLine (h : Shows t s ⟨bs, l ++ [b], r, as⟩ xs ys n) (fuel : ℕ) :
    wp (deleteInLine fuel) (fun _ s' => ∃ n', Shows t s' ⟨bs, l, r, as⟩ xs ys n' ∧ Edited s s' ∧
      s'.dChar = s.saved [b]) s := by
  rw [deleteInLine, wp_bind, markChanged, wp_modify]
  have h1 : Shows t { s with textChanges := true } ⟨bs, l ++ [b], r, as⟩ xs ys n := h.of_core rfl
  rw [wp_bind, wp_wideBefore h1.inv.narrow, if_neg Bool.false_ne_true, wp_bind]
  refine h1.wp_retreat fun s2 h2 hs2 => ?_
  obtain ⟨rest, hold⟩ := h2.exists_holds
  dsimp only at hold
  obtain ⟨n', rest', hcopy, hlinks, hline, hold'⟩ := hold.deleteByte
  -- the line is cut before its rest moves down: for now nothing is known of the terminator
  have hsplit : l ++ b :: r = l ++ (b :: r).dropLast ++ [(b :: r).getLast (by simp)] := by
    rw [List.append_assoc, List.dropLast_concat_getLast]
  obtain ⟨rest'', hcut⟩ := (hsplit ▸ hold).cut
  rw [wp_bind, wp_get, wp_bind, wp_curr h2.inv.curr, wp_bind, wp_setCurr, wp_bind]
  have h3 : Shows False (s2.setNode s2.currLine { n with lineLength := n.lineLength - 1 })
      ⟨bs, l, (b :: r).dropLast, as⟩ xs ys { n with lineLength := n.lineLength - 1 } :=
    h2.replace False.elim rfl ⟨rfl, rfl⟩ hcut rfl rfl (Nat.le_refl _) rfl h2.point_eq h2.left rfl rfl
  refine wp_mono (h3.inv.wp_columnBack fuel 1) fun _ s4 hs4 => ?_
  have h4 := h3.inv.of_core hs4.core
  have hread : ({ n with lineLength := n.lineLength - 1 } : Node).readMany s2.point 1 = some [b] := by
    have hlt : s2.point.off + 1 ≤ n.bytes.length := h2.inv.off_lt
    refine (Node.readMany_eq h2.inv.block hlt).trans ?_
    simp [h2.point_eq, hold.bytes]
  rw [wp_bind, wp_curr h4.curr, wp_bind, hread, wp_orFault_some, wp_bind, wp_saveChar, wp_bind]
  refine (wp_curr (s := { s4 with dChar := s4.saved [b] }) h4.curr).mpr ?_
  rw [wp_bind, h2.point_eq, h2.left, Ptr.add, hcopy, wp_orFault_some, wp_bind, wp_setCurr, wp_bind,
    wp_get]
  obtain ⟨hm4, hc4, hp4, hpos4⟩ := hs4
  have h5 : Shows t (Editor.setNode { s4 with dChar := s4.saved [b] } s4.currLine n') ⟨bs, l, r, as⟩
      xs ys n' := by
    refine h2.replace id ?_ hlinks hold' hc4 hm4.firstLine ?_ hm4.eeChinese ?_ ?_ rfl rfl
    · simp only [Editor.setNode, hm4.heap, hc4, Function.update_idem]
    · exact Nat.le_of_eq hm4.fresh.symm
    · exact (hp4.trans h2.point_eq).trans (by rw [hline])
    · exact hpos4.trans h2.left
  have hs4 := Touches.of_moves hm4
  have hs5 : Edited s (Editor.setNode { s4 with dChar := s4.saved [b] } s4.currLine n') :=
    (Touches.of_moves hs2).trans hs4
  have hd5 : s4.saved [b] = s.saved [b] :=
    ((congrArg (·.saved [b]) hs2).trans (congrArg (·.saved [b]) hm4)).symm
  refine wp_onlyIf (fun _ => ?_) fun _ => ⟨n', h5, hs5, hd5⟩
  refine h5.wp_midscreen fuel _ fun s6 hs6 h6 => ⟨n', h6, hs5.touches (.of_moves hs6.1), ?_⟩
  exact (congrArg Editor.dChar hs6.1).symm.trans hd5

end Bytes

/-! ### Splitting a line -/

theorem wp_setPrev {i : Option ℕ} {p : ℕ} {post : Unit → Editor → Prop}
    (hi : ∀ j, i = some j → ∃ m, s.heap j = some m)
    (hpost : ∀ s', Allocates s s' →
      (∀ x y, s.heap x = some y →
        s'.heap x = some (if i = some x then { y with prev := some p } else y)) → post () s') :
    wp (setPrev i p) post s := by
  cases i with
  | none => exact hpost s ⟨rfl, Nat.le_refl _⟩ fun x y hy => by simp [hy]
  | some j =>
    obtain ⟨m, hm⟩ := hi j rfl
    rw [setPrev, wp_bind, wp_node hm, setNode, wp_modify]
    refine hpost _ (.setNode _ _ _) fun x y hy => ?_
    by_cases hx : j = x
    · subst hx
      obtain rfl : m = y := by simpa [hm] using hy
      simp [Editor.setNode]
    · simp [Editor.setNode, Function.update_of_ne (Ne.symm hx), hy, hx]

theorem wp_allocLine (size : ℕ) (n : Node) {post : ℕ → Editor → Prop}
    (hpost : ∀ s', Allocates s s' → s.fresh < s'.fresh → s'.heap = Function.update s.heap s.fresh
      (some { n with line := s.fresh + 1, bytes := s.host.malloc (s.fresh + 1) size }) →
      post s.fresh s') : wp (allocLine size n) post s := by
  rw [allocLine, wp_bind, wp_get, wp_bind, wp_set, wp_bind, setNode, wp_modify, wp_pure]
  refine hpost _ ⟨rfl, ?_⟩ ?_ rfl
  · exact Nat.le_add_right _ 2
  · exact Nat.lt_add_of_pos_right (Nat.succ_pos 1)

/-- The new node of `insert_line`. -/
theorem Linked.wp_linkNew {ids : List ℕ} (h : Linked s ids) (hmem : s.currLine ∈ ids)
    (hcurr : s.heap s.currLine = some n) {post : ℕ → Editor → Prop}
    (hpost : ∀ s' m rest, Allocates s s' → s.fresh < s'.fresh →
      Inserted s.heap s'.heap s.currLine s.fresh n { n with next := some s.fresh } m →
      Holds False m [] rest → post s.fresh s') :
    wp linkNew post s := by
  have hlt : ∀ j, n.next = some j → j ≠ s.fresh := fun j hj =>
    Nat.ne_of_lt (h.bound j (h.next_mem hmem hcurr hj))
  have hck : s.currLine ≠ s.fresh := Nat.ne_of_lt (h.bound _ hmem)
  rw [linkNew, wp_bind, wp_get, wp_bind, wp_curr hcurr, wp_bind]
  refine wp_allocLine _ _ fun s1 hs1 hfresh heap1 => ?_
  rw [wp_bind]
  refine wp_setPrev (fun j hj => ?_) fun s2 hs2 heap2 => ?_
  · obtain ⟨m, hm⟩ := h.chain.exists_node (h.next_mem hmem hcurr hj)
    exact ⟨m, by rw [heap1, Function.update_of_ne (hlt j hj), hm]⟩
  · rw [wp_bind, setNode, wp_modify]
    refine hpost (s2.setNode s.currLine { n with next := some s.fresh })
      { line := s.fresh + 1, bytes := s.host.malloc (s.fresh + 1) 10,
        lineNumber := n.lineNumber + 1, lineLength := 1, maxLength := 10, next := n.next,
        prev := some s.currLine } (s.host.malloc (s.fresh + 1) 10) ((hs1.trans hs2).trans (.setNode _ _ _)) ?_
      ⟨hcurr, ?_, rfl, rfl, ?_, rfl, rfl, fun x y hxc hxk hy => ?_⟩
      ⟨rfl, rfl, ?_, ?_, False.elim⟩
    · exact Nat.lt_of_lt_of_le hfresh hs2.fresh
    · simp
    · rw [Editor.setNode_heap, Function.update_of_ne hck.symm,
        heap2 s.fresh _ (by rw [heap1, Function.update_self]), if_neg fun hn => hlt _ hn rfl]
    · rw [Editor.setNode_heap, Function.update_of_ne hxc]
      exact heap2 x y (by rw [heap1, Function.update_of_ne hxk, hy])
    · simp
    · exact List.length_pos_iff.mp (by simp)

/-- One more byte at the end of a line that has room for it. -/
theorem Holds.push {line rest : List UInt8} (h : Holds False n line rest) (b : UInt8)
    (hroom : 2 ≤ rest.length) : ∃ n' rest',
      ({ n with lineLength := n.lineLength + 1 } : Node).write ⟨n.line, line.length⟩ b = some n' ∧
      SameLinks n n' ∧ n'.line = n.line ∧ Holds False n' (line ++ [b]) rest' := by
  obtain ⟨hbytes, hlen, hsize, -, -⟩ := h
  match rest, hroom with
  | x :: y :: rest, _ =>
    refine ⟨_, y :: rest, Node.write_eq rfl (by simp [hbytes]) b, ⟨rfl, rfl⟩, rfl, ?_, ?_, ?_,
      by simp, False.elim⟩
    · simp [hbytes]
    · simp [hlen]
    · simp only [hsize, List.length_append, List.length_cons, List.length_nil]
      omega

theorem wp_appendBytes (bytes : List UInt8) {nod : ℕ} {m : Node} {done rest : List UInt8}
    (hm : s.heap nod = some m) (hold : Holds False m done rest) {post : Ptr → Editor → Prop}
    (hpost : ∀ s' m' rest', Allocates s s' → s'.heap = Function.update s.heap nod (some m') →
      SameLinks m m' → Holds False m' (done ++ bytes) rest' →
      post ⟨m'.line, (done ++ bytes).length⟩ s') :
    wp (appendBytes nod bytes ⟨m.line, done.length⟩ (done.length + 1)) post s := by
  induction bytes generalizing s m done rest with
  | nil =>
    have hheap : s.heap = Function.update s.heap nod (some m) := by
      rw [← hm, Function.update_eq_self]
    rw [List.append_nil] at hpost
    exact hpost s m rest ⟨rfl, Nat.le_refl _⟩ hheap ⟨rfl, rfl⟩ hold
  | cons b bytes ih =>
    have hpush : ∀ s1 m1 rest1, Allocates s s1 → s1.heap = Function.update s.heap nod (some m1) →
        SameLinks m m1 → Holds False m1 done rest1 → 2 ≤ rest1.length →
        wp (do
          let m ← node nod
          setNode nod (← orFault ({ m with lineLength := m.lineLength + 1 }.write
            ⟨m1.line, done.length⟩ b))
          appendBytes nod bytes (Ptr.add ⟨m1.line, done.length⟩ 1) (done.length + 1 + 1)) post s1 := by
      intro s1 m1 rest1 hs1 heap1 hlinks hold1 hroom
      obtain ⟨m2, rest2, hwrite, hlinks2, hline2, hold2⟩ := hold1.push b hroom
      rw [wp_bind, wp_node (by rw [heap1, Function.update_self]), wp_bind, hwrite, wp_orFault_some,
        wp_bind, setNode, wp_modify, Ptr.add, ← hline2]
      have hlen : done.length + 1 = (done ++ [b]).length := by simp
      simp only [hlen]
      refine ih (by simp) hold2 fun s3 m3 rest3 hs3 heap3 hl3 hold3 => ?_
      rw [List.append_assoc, List.singleton_append] at hold3 ⊢
      refine hpost s3 m3 rest3 ((hs1.trans (.setNode _ _ _)).trans hs3) ?_
        ((hlinks.trans hlinks2).trans hl3) hold3
      rw [heap3, Editor.setNode_heap, heap1, Function.update_idem, Function.update_idem]
    have hlen := hold.length
    have hsize := hold.size
    rw [appendBytes, wp_bind, wp_node hm, wp_bind]
    refine wp_ite (fun _ => ?_) fun hroom => ?_
    · refine hold.wp_resizLine hm 10 _ fun s1 m1 rest1 hs1 heap1 hlinks _ hlen1 hold1 => ?_
      exact hpush s1 m1 rest1 hs1 heap1 hlinks hold1 (by omega)
    · refine hpush s m rest ⟨rfl, Nat.le_refl _⟩ ?_ ⟨rfl, rfl⟩ hold (by omega)
      rw [← hm, Function.update_eq_self]

theorem realloc_shrink (h : Host) (block : ℕ) {bytes : List UInt8} {size : ℕ}
    (hsize : size ≤ bytes.length) : h.realloc block bytes size = bytes.take size := by
  rw [Host.realloc, List.drop_of_length_le (by simpa using hsize), List.append_nil]

/-- A line cut at the cursor, in a block that has shrunk by what was behind it. -/
theorem Holds.shrink {l r rest : List UInt8} (h : Holds t n (l ++ r) rest) (hr : r ≠ [])
    (host : Host) (block : ℕ) : ∃ rest', Holds True { n with
      line := block
      bytes := host.realloc block (n.bytes.set l.length 0)
        (n.maxLength + (1 - ((r.length + 1 : ℕ) : ℤ))).toNat
      maxLength := (n.maxLength + (1 - ((r.length + 1 : ℕ) : ℤ))).toNat
      lineLength := l.length + 1 } l rest' := by
  obtain ⟨hbytes, -, hsize, hroom, -⟩ := h
  obtain ⟨x, r, rfl⟩ := List.exists_cons_of_ne_nil hr
  obtain ⟨y, rest, rfl⟩ := List.exists_cons_of_ne_nil hroom
  simp only [List.length_append, List.length_cons] at hsize
  have hmax : (n.maxLength + (1 - (((x :: r).length + 1 : ℕ) : ℤ))).toNat =
      l.length + (rest.length + 1) := by
    rw [hsize, List.length_cons]
    omega
  have hset : n.bytes.set l.length 0 = l ++ 0 :: (r ++ y :: rest) := by simp [hbytes]
  refine ⟨(0 :: (r ++ y :: rest)).take (rest.length + 1), ?_, rfl, ?_, by simp, fun _ => rfl⟩
  · simp only [hmax, hset]
    rw [realloc_shrink _ _ (by simp; omega), List.take_length_add_append]
  · simp only [List.length_take, List.length_cons, List.length_append]
    omega

theorem Holds.weaken {t' : Prop} {line rest : List UInt8} (h : Holds t n line rest) (ht : t' → t) :
    Holds t' n line rest :=
  ⟨h.bytes, h.length, h.size, h.room, h.term ∘ ht⟩

section Split
variable {bs as : List (List UInt8)} {l r : List UInt8}

theorem Shows.wp_moveTail (h : Shows t s ⟨bs, l, r, as⟩ xs ys n) {s1 : Editor} {k : ℕ} {m : Node}
    {rest : List UInt8} (hs1 : Allocates s s1) (hck : s.currLine ≠ k)
    (hi : Inserted s.heap s1.heap s.currLine k n { n with next := some k } m)
    (hold : Holds False m [] rest) {post : Ptr → Editor → Prop}
    (hpost : ∀ s2 n2 m2 rest1 rest2, Allocates s1 s2 → Inserted s.heap s2.heap s.currLine k n n2 m2 →
      Holds t { n2 with lineLength := l.length + 1 } l rest1 → Holds False m2 r rest2 →
      post ⟨m2.line, r.length⟩ s2) : wp (moveTail k) post s1 := by
  obtain ⟨rest0, hold0⟩ := h.exists_holds
  have hlen := h.lineLength_eq
  have hpos : s1.position = l.length + 1 := hs1.position.trans h.left
  have hpt : s1.point = ⟨n.line, l.length⟩ := hs1.point.trans h.point_eq
  have hcurr1 : s1.heap s1.currLine = some { n with next := some k } := by
    rw [hs1.currLine]
    exact hi.curr
  dsimp only at hlen hold0
  rw [moveTail, wp_bind, wp_get, wp_bind, wp_curr hcurr1, wp_bind, wp_node hi.new]
  refine wp_ite (fun hlt => ?_) fun hge => ?_
  · dsimp only at hlt
    have hr : r ≠ [] := List.length_pos_iff.mp (by omega)
    have hread : ({ n with next := some k } : Node).readMany s1.point (n.lineLength - s1.position) =
        some r := by
      rw [hpt, Node.readMany_eq rfl (by simp [hold0.bytes]; omega), hold0.bytes]
      simp [hpos, hlen, show l.length + r.length + 1 - (l.length + 1) = r.length by omega]
    rw [wp_bind, hread, wp_orFault_some, wp_bind]
    refine wp_appendBytes r hi.new hold fun s2 m2 rest2 hs2 heap2 hlinks2 hold2 => ?_
    rw [List.nil_append] at hold2 ⊢
    have hi2 := hi.set_new hck hlinks2
    rw [← heap2] at hi2
    have hwrite : ({ n with next := some k } : Node).write s1.point 0 =
        some { n with next := some k, bytes := n.bytes.set l.length 0 } := by
      rw [hpt]
      exact Node.write_eq rfl (by simp [hold0.bytes]; omega) 0
    have hc2 : s2.currLine = s.currLine := hs2.currLine.trans hs1.currLine
    rw [wp_bind, hwrite, wp_orFault_some, wp_bind, wp_setCurr, hc2, wp_bind,
      wp_node (show (s2.setNode s.currLine _).heap k = some m2 by
        rw [Editor.setNode_heap, Function.update_of_ne hck.symm, hi2.new]), hs1.currLine, wp_bind,
      wp_resizLine (by rw [Editor.setNode_heap, Function.update_self]), wp_pure, hold2.length]
    obtain ⟨rest1, hold1⟩ := hold0.shrink hr s2.host s2.fresh
    refine hpost _ { n with
      next := some k
      line := s2.fresh
      bytes := s2.host.realloc s2.fresh (n.bytes.set l.length 0)
        (n.maxLength + (1 - ((r.length + 1 : ℕ) : ℤ))).toNat
      maxLength := (n.maxLength + (1 - ((r.length + 1 : ℕ) : ℤ))).toNat } m2 rest1 rest2 ?_ ?_ ?_ hold2
    · exact hs2.trans ⟨rfl, Nat.le_succ _⟩
    · simp only [Editor.setNode_heap, Function.update_idem]
      exact hi2.set_curr hck ⟨rfl, rfl⟩
    · exact ⟨hold1.bytes, hold1.length, hold1.size, hold1.room, fun _ => hold1.term trivial⟩
  · have hr : r = [] := List.length_eq_zero_iff.mp (by dsimp only at hge; omega)
    subst hr
    rw [List.append_nil] at hold0
    refine hpost s1 _ m rest0 rest ⟨rfl, Nat.le_refl _⟩ hi ?_ hold
    exact ⟨hold0.bytes, rfl, hold0.size, hold0.room, hold0.term⟩

/-- Writing the terminator. -/
theorem Holds.terminate {line rest : List UInt8} (h : Holds t n line rest) : ∃ n' rest',
    n.write ⟨n.line, line.length⟩ 0 = some n' ∧ SameLinks n n' ∧ n'.line = n.line ∧
      Holds True n' line rest' := by
  obtain ⟨hbytes, hlen, hsize, hroom, -⟩ := h
  obtain ⟨x, rest, rfl⟩ := List.exists_cons_of_ne_nil hroom
  refine ⟨_, 0 :: rest, Node.write_eq rfl (by simp [hbytes]) 0, ⟨rfl, rfl⟩, rfl, ?_, hlen, hsize,
    by simp, fun _ => rfl⟩
  simp [hbytes]

/-- `insert_line`: what is behind the cursor becomes a line of its own. -/
theorem Shows.wp_insertLine (h : Shows t s ⟨bs, l, r, as⟩ xs ys n) (fuel : ℕ) (disp : Bool) :
    wp (insertLine fuel disp) (fun _ s' => ∃ n', s'.tmpLine = s.tmpLine ∧
      Shows t s' ⟨bs ++ [l], [], r, as⟩ (xs ++ [s.currLine]) ys n' ∧ Edited s s') s := by
  rw [insertLine, wp_bind]
  refine wp_markChanged fun s0 hcore htmp hs0 => ?_
  have hc0 : s0.currLine = s.currLine := congrArg (·.2.2.2.1) hcore
  have h0 := h.of_core hcore
  rw [wp_bind]
  refine h0.inv.linked.wp_linkNew h0.inv.mem h0.inv.curr fun s1 m rest hs1 hfresh1 hi hold => ?_
  have hck : s0.currLine ≠ s0.fresh := Nat.ne_of_lt (h0.inv.bound _ h0.inv.mem)
  rw [wp_bind]
  refine h0.wp_moveTail hs1 hck hi hold fun s2 n2 m2 rest1 rest2 hs2 hi2 hold1 hold2 => ?_
  obtain ⟨m3, rest3, hwrite, hlinks3, -, hold3⟩ := hold2.terminate
  have hs02 := hs1.trans hs2
  have hpos2 : s2.position = l.length + 1 := hs02.position.trans h0.left
  have hcurr2 : s2.heap s2.currLine = some n2 := by rw [hs02.currLine, hi2.curr]
  have hnew : ∀ n3, (s2.setNode s2.currLine n3).heap s0.fresh = some m2 := fun n3 => by
    rw [Editor.setNode_heap, hs02.currLine, Function.update_of_ne hck.symm, hi2.new]
  rw [wp_bind, wp_get, wp_bind, wp_curr hcurr2, wp_bind, wp_setCurr, hpos2, wp_bind,
    wp_node (hnew _), wp_bind, hwrite, wp_orFault_some, wp_bind, setNode, wp_modify, wp_bind,
    wp_node (by rw [Editor.setNode_heap, Function.update_self]), wp_bind, wp_modify]
  have hshow : ∀ s5, s5.core = (((s2.setNode s2.currLine { n2 with lineLength := l.length + 1 }).setNode
      s0.fresh m3).heap, s2.fresh, s2.firstLine, s0.fresh, m3.start, 1, s2.eeChinese) →
      Shows t s5 ⟨bs ++ [l], [], r, as⟩ (xs ++ [s.currLine]) ys m3 := by
    intro s5 hs5
    simp only [Editor.core, Prod.mk.injEq] at hs5
    obtain ⟨heap5, hfresh5, hfirst5, hcurr5, hpt5, hpos5, hnar5⟩ := hs5
    have hi5 : Inserted s0.heap s5.heap s0.currLine s0.fresh n { n2 with lineLength := l.length + 1 }
        m3 := by
      rw [heap5, Editor.setNode_heap, Editor.setNode_heap, hs02.currLine]
      refine Inserted.set_new (hi2.set_curr hck ?_) hck hlinks3
      exact ⟨rfl, rfl⟩
    rw [← hc0]
    refine h0.insert hi5 (Nat.le_refl _) hold1.ok (hold3.weaken fun _ => trivial) hcurr5
      (hfirst5.trans hs02.firstLine) ?_ (hnar5.trans hs02.eeChinese) hpt5 hpos5 ?_ rfl
    · rw [hfresh5]
      exact Nat.lt_of_lt_of_le hfresh1 hs2.fresh
    · rw [hold1.content]
  have htouch : ∀ s5, Touches s2 s5 → Edited s s5 := fun s5 hs5 =>
    (hs0.touches hs02.touches).touches hs5
  have htmp2 : s2.tmpLine = s.tmpLine := hs02.tmpLine.trans htmp
  refine wp_onlyIf (fun _ => ?_) fun _ => ⟨m3, htmp2, hshow _ rfl, htouch _ rfl⟩
  rw [wp_bind, wp_modify]
  refine (hshow _ rfl).inv.wp_resetOffset fuel fun s6 hs6 => ⟨m3, ?_, ?_, ?_⟩
  all_goals obtain ⟨_, _, _, rfl⟩ := hs6
  · exact htmp2
  · exact hshow _ rfl
  · exact htouch _ rfl

end Split

end BsdAdditions.Ee
