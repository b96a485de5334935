import BsdAdditions.Ee.Commands
import BsdAdditions.Ee.Steps

/-! The 16-bit mode: a line as a sequence of characters of one or two bytes. -/
namespace BsdAdditions.Ee
open Common Common.Prog

inductive Character where
  | single (b : UInt8) (low : b < 128)
  | double (lead trail : UInt8) (high : 127 < lead) (nonzero : trail ≠ 0)

def Character.bytes : Character → List UInt8
  | .single b _ => [b]
  | .double lead trail _ _ => [lead, trail]

def Character.last : Character → UInt8
  | .single b _ => b
  | .double _ trail _ _ => trail

def bytesOf (cs : List Character) : List UInt8 := cs.flatMap Character.bytes

theorem bytesOf_append (cs cs' : List Character) : bytesOf (cs ++ cs') = bytesOf cs ++ bytesOf cs' :=
  List.flatMap_append

theorem bytesOf_cons (c : Character) (cs : List Character) :
    bytesOf (c :: cs) = c.bytes ++ bytesOf cs := List.flatMap_cons

@[simp] theorem bytesOf_nil : bytesOf [] = [] := rfl

theorem bytesOf_snoc (cs : List Character) (c : Character) :
    bytesOf (cs ++ [c]) = bytesOf cs ++ c.bytes := by
  rw [bytesOf_append, bytesOf_cons, bytesOf_nil, List.append_nil]

theorem Character.bytes_pos (c : Character) : 0 < c.bytes.length := by
  cases c <;> simp [Character.bytes]

theorem bytesOf_eq_nil {cs : List Character} : bytesOf cs = [] ↔ cs = [] := by
  cases cs with
  | nil => simp
  | cons c cs => cases c <;> simp [bytesOf_cons, Character.bytes]

theorem Character.exists_last (c : Character) : ∃ l, c.bytes = l ++ [c.last] := by
  cases c with
  | single b low => exact ⟨[], rfl⟩
  | double lead trail high nonzero => exact ⟨[lead], rfl⟩

/-- The byte that a step left looks at tells how wide the last character is: in front of a single
byte stands another character, whose last byte is not taken for a lead. -/
def LeftSafe (before : List Character) : Prop :=
  ∀ cs b low, before = cs ++ [.single b low] → ∃ cs' c, cs = cs' ++ [c] ∧ c.last ≤ 127

/-- The cursor, in both its copies. -/
def Editor.place (s : Editor) : ℕ × Ptr × ℕ := (s.currLine, s.point, s.position)

def RightLeft (s : Editor) : Prop :=
  ∀ fuel, 2 ≤ fuel → Returns (do right fuel true; left fuel true) (fun _ s' => s'.place = s.place) s

def LeftRight (s : Editor) : Prop :=
  ∀ fuel, 2 ≤ fuel → Returns (do left fuel true; right fuel true) (fun _ s' => s'.place = s.place) s

/-- Backspace leaves this text, with the cursor there. -/
def Deletes (s : Editor) (z : Zipper) : Prop :=
  ∀ fuel, 2 ≤ fuel → Returns (delete fuel true)
    (fun _ s' => s'.text = z.text ∧ s'.currLine = s.currLine ∧ s'.position = z.left.length + 1) s

variable {t : Prop} {s s' : Editor} {xs ys : List ℕ} {n m : Node} {bs as : List (List UInt8)}
  {before after : List Character} {l r : List UInt8}

/-! ### Steps over whole characters -/

/-- Where the mode is safe a step left goes over one character. -/
theorem LeftSafe.stepsBack {cs : List Character} {c : Character} (h : LeftSafe (cs ++ [c])) :
    StepsBack true (bytesOf (cs ++ [c])) c.bytes.length := by
  right
  cases c with
  | single b low =>
    obtain ⟨cs', d, rfl, hd⟩ := h cs b low rfl
    obtain ⟨l, hl⟩ := d.exists_last
    refine ⟨bytesOf cs' ++ l, d.last, b, ?_, ?_⟩
    · rw [bytesOf_snoc, bytesOf_snoc, hl]
      simp [Character.bytes]
    · have hnot : ¬ (127 : UInt8) < d.last := by simpa using hd
      simp [stepLeft, hnot, Character.bytes]
  | double lead trail high nonzero =>
    refine ⟨bytesOf cs, lead, trail, ?_, ?_⟩
    · rw [bytesOf_snoc, Character.bytes]
    · simp [stepLeft, high, Character.bytes]

/-- Elsewhere it meets the front of the line, or goes over two bytes where there is one. -/
theorem not_leftSafe (h : ¬ LeftSafe before) : (∃ b low, before = [.single b low]) ∨
    ∃ l a b, bytesOf before = l ++ [a, b] ∧ 127 < a ∧
      ∃ cs c, before = cs ++ [c] ∧ c.bytes.length = 1 := by
  unfold LeftSafe at h
  push Not at h
  obtain ⟨cs, b, low, rfl, h⟩ := h
  obtain rfl | ⟨cs', d, rfl⟩ := cs.eq_nil_or_concat'
  · exact .inl ⟨b, low, rfl⟩
  · right
    obtain ⟨l, hl⟩ := d.exists_last
    refine ⟨bytesOf cs' ++ l, d.last, b, ?_, ?_, _, _, rfl, rfl⟩
    · rw [bytesOf_snoc, bytesOf_snoc, hl]
      simp [Character.bytes]
    · simpa using h cs' d rfl

theorem stepRight_character (c : Character) (cs : List Character) : ∃ b rest,
    bytesOf (c :: cs) = b :: rest ∧ stepRight true b rest = c.bytes.length := by
  cases c with
  | single b low =>
    have hnot : ¬ (127 : UInt8) < b := by
      rw [UInt8.lt_iff_toNat_lt] at low ⊢
      simp only [UInt8.reduceToNat] at low ⊢
      omega
    exact ⟨b, bytesOf cs, rfl, by simp [stepRight, hnot, Character.bytes]⟩
  | double lead trail high nonzero =>
    exact ⟨lead, trail :: bytesOf cs, rfl, by simp [stepRight, high, Character.bytes]⟩

theorem Views.place_eq (h : Views t s ⟨bs, bytesOf before, bytesOf after, as⟩ xs ys n) :
    s.place = (s.currLine, ⟨n.line, (bytesOf before).length⟩, (bytesOf before).length + 1) := by
  rw [Editor.place, h.point_eq, h.position_eq]

/-- The place depends on the length of what is in front. -/
theorem Views.same_place_iff {l r l' r' : List UInt8} (h : Views t s ⟨bs, l, r, as⟩ xs ys n)
    (h' : Views t s' ⟨bs, l', r', as⟩ xs ys n) (hc : s'.currLine = s.currLine) :
    s'.place = s.place ↔ l'.length = l.length := by
  rw [Editor.place, Editor.place, h.point_eq, h.position_eq, h'.point_eq, h'.position_eq, hc]
  simp

/-- In the unsafe places that it survives a step left goes too far. -/
theorem Views.returns_left_unsafe {l r : List UInt8} {a b : UInt8}
    (h : Views t s ⟨bs, l ++ [a, b], r, as⟩ xs ys n) (hw : s.eeChinese = true) (ha : 127 < a)
    {fuel : ℕ} (hfuel : 2 ≤ fuel) : Returns (left fuel true)
      (fun _ s' => Views t s' ⟨bs, l, a :: b :: r, as⟩ xs ys n ∧ Moves s s' ∧
        s'.currLine = s.currLine) s := by
  have hk : StepsBack s.eeChinese (l ++ [a, b]) 2 :=
    .inr ⟨l, a, b, rfl, by simp [stepLeft, hw, ha]⟩
  exact (h.returns_left hfuel hk (show l ++ a :: b :: r = _ by simp) (by simp)).mono
    fun _ s' hpost => ⟨hpost.1, hpost.2.1, hpost.2.2.1⟩

/-- Where the mode is safe a step left goes back over one character. -/
theorem Views.returns_left_over {cs : List Character} {c : Character} {r : List UInt8}
    (h : Views t s ⟨bs, bytesOf (cs ++ [c]), r, as⟩ xs ys n) (hw : s.eeChinese = true)
    (hsafe : LeftSafe (cs ++ [c])) {fuel : ℕ} (hfuel : 2 ≤ fuel) : Returns (left fuel true)
      (fun _ s' => Views t s' ⟨bs, bytesOf cs, c.bytes ++ r, as⟩ xs ys n ∧ Moves s s' ∧
        s'.currLine = s.currLine) s := by
  refine (h.returns_left hfuel (hw ▸ hsafe.stepsBack) ?_ ?_).mono
    fun _ s' ⟨h', hm, hc, _⟩ => ⟨h', hm, hc⟩
  · rw [bytesOf_snoc, List.append_assoc]
  · rw [bytesOf_snoc, List.length_append]

/-- Nowhere else does it end in front of the last character. -/
theorem Views.leftSafe_of_left {cs : List Character} {c : Character} {r : List UInt8}
    (h : Views t s ⟨bs, bytesOf (cs ++ [c]), r, as⟩ xs ys n) (hw : s.eeChinese = true)
    (hleft : Returns (left 2 true) (fun _ s' => s'.position = (bytesOf cs).length + 1) s) :
    LeftSafe (cs ++ [c]) := by
  by_contra hsafe
  rcases not_leftSafe hsafe with ⟨b, low, hb⟩ | ⟨l, a, b, hl, ha, cs', c', hcs, hlen⟩
  · rw [hb] at h
    exact h.left_fault hw 2 _ hleft
  · obtain ⟨-, rfl⟩ := List.append_inj' hcs rfl |>.imp_right List.singleton_inj.mp
    have hbytes : (bytesOf cs).length + 1 = l.length + 2 := by
      have := congrArg List.length hl
      rw [bytesOf_snoc, List.length_append, hlen] at this
      simpa using this
    rw [hl] at h
    obtain ⟨_, s', hpos, h', -⟩ := hleft.and (h.returns_left_unsafe hw ha (Nat.le_refl 2))
    have hpos' := h'.position_eq
    omega

theorem Editor.position_of_place {s s' : Editor} (h : s'.place = s.place) :
    s'.currLine = s.currLine ∧ s'.position = s.position := by
  simp only [Editor.place, Prod.mk.injEq] at h
  exact ⟨h.1, h.2.2⟩

/-- Behind a character a step left moves, if it returns. -/
theorem Views.left_leaves {cs : List Character} {c : Character}
    (h : Views t s ⟨bs, bytesOf (cs ++ [c]), r, as⟩ xs ys n) (hw : s.eeChinese = true) :
    ¬ Returns (left 2 true) (fun _ s' => s'.place = s.place) s := by
  intro hleft
  have hc := c.bytes_pos
  have hpos := h.position_eq
  rw [bytesOf_snoc, List.length_append] at hpos
  by_cases hsafe : LeftSafe (cs ++ [c])
  · obtain ⟨_, s1, hplace, h1, -⟩ := hleft.and (h.returns_left_over hw hsafe (Nat.le_refl 2))
    have hpos1 := h1.position_eq
    have := (Editor.position_of_place hplace).2
    omega
  · rcases not_leftSafe hsafe with ⟨b, low, hb⟩ | ⟨l, a, b, hl, ha, -⟩
    · rw [hb] at h
      exact h.left_fault hw 2 _ hleft
    · rw [hl] at h
      obtain ⟨_, s1, hplace, h1, -⟩ := hleft.and (h.returns_left_unsafe hw ha (Nat.le_refl 2))
      have hpos0 := h.position_eq
      have hpos1 := h1.position_eq
      have := (Editor.position_of_place hplace).2
      simp only [List.length_append, List.length_cons, List.length_nil] at hpos0
      omega

/-- A step right goes over one character. -/
theorem Views.returns_right_over {l : List UInt8} {c : Character} {cs : List Character}
    (h : Views t s ⟨bs, l, bytesOf (c :: cs), as⟩ xs ys n) (hw : s.eeChinese = true) {fuel : ℕ}
    (hfuel : 2 ≤ fuel) : Returns (right fuel true)
      (fun _ s' => Views t s' ⟨bs, l ++ c.bytes, bytesOf cs, as⟩ xs ys n ∧ Moves s s' ∧
        s'.currLine = s.currLine) s := by
  obtain ⟨b, rest, hb, hstep⟩ := stepRight_character c cs
  have h' := h
  rw [hb] at h'
  refine (h'.returns_right hfuel ?_ ?_).mono fun _ s' ⟨h'', hm, hc, _⟩ => ⟨h'', hm, hc⟩
  · rw [← hb, bytesOf_cons, List.append_assoc]
  · rw [hw, hstep, List.length_append]

/-! ### There and back -/

theorem Views.rightLeft_over_iff {c : Character} {cs : List Character}
    (h : Views t s ⟨bs, bytesOf before, bytesOf (c :: cs), as⟩ xs ys n) (hw : s.eeChinese = true) :
    RightLeft s ↔ LeftSafe (before ++ [c]) := by
  constructor
  · intro hret
    have hret := hret 2 (Nat.le_refl 2)
    rw [returns_bind] at hret
    obtain ⟨_, s1, hleft, h1, hm1, -⟩ := hret.and (h.returns_right_over hw (Nat.le_refl 2))
    rw [← bytesOf_snoc] at h1
    refine h1.leftSafe_of_left (hm1.eeChinese.trans hw) (hleft.mono fun _ s2 hplace => ?_)
    exact (Editor.position_of_place hplace).2.trans h.position_eq
  · intro hsafe fuel hfuel
    rw [returns_bind]
    refine (h.returns_right_over hw hfuel).mono fun _ s1 ⟨h1, hm1, hc1⟩ => ?_
    rw [← bytesOf_snoc] at h1
    refine (h1.returns_left_over (hm1.eeChinese.trans hw) hsafe hfuel).mono
      fun _ s2 ⟨h2, hm2, hc2⟩ => ?_
    exact (h.same_place_iff h2 (hc2.trans hc1)).mpr rfl

/-- Across the end of a line the way back is found. -/
theorem Views.rightLeft_end {a : List UInt8}
    (h : Views t s ⟨bs, bytesOf before, [], a :: as⟩ xs ys n) : RightLeft s := by
  intro fuel hfuel
  obtain ⟨i, ys', rfl, hright⟩ := h.returns_right_next hfuel
  rw [returns_bind]
  refine hright.mono fun _ s1 ⟨m, h1, hm1, hc1, _⟩ => ?_
  obtain ⟨j, xs', hxs, hleft⟩ := h1.returns_left_prev hfuel
  obtain ⟨rfl, hj⟩ := List.append_inj' hxs rfl
  obtain rfl := List.singleton_inj.mp hj
  refine hleft.mono fun _ s2 ⟨n', h2, hm2, hc2, _⟩ => ?_
  have hn : n' = n := by
    have := h2.curr
    rw [hc2, hm2.heap, hm1.heap, h.curr] at this
    exact (Option.some.inj this).symm
  subst hn
  rw [Editor.place, Editor.place, hc2, h2.point_eq, h2.position_eq, h.point_eq, h.position_eq]

/-- No line of the list stands in it twice. -/
theorem Views.currLine_notMem (h : Views t s ⟨bs, l, r, as⟩ xs ys n) :
    s.currLine ∉ xs ∧ s.currLine ∉ ys := by
  obtain ⟨-, hxs, hys, -⟩ := nodup_around h.shows.inv.lines.nodup
  exact ⟨fun hm => hxs _ hm rfl, fun hm => hys _ hm rfl⟩

/-- At the end of the text a step right does nothing, and the step left that follows moves unless
the text is empty. -/
theorem Views.rightLeft_last_iff (h : Views t s ⟨bs, bytesOf before, [], []⟩ xs ys n)
    (hw : s.eeChinese = true) : RightLeft s ↔ before = [] ∧ bs = [] := by
  have hstart : RightLeft s → Returns (left 2 true) (fun _ s' => s'.place = s.place) s := by
    intro hret
    have hret := hret 2 (Nat.le_refl 2)
    rw [returns_bind] at hret
    obtain ⟨_, s1, hleft, rfl⟩ := hret.and (h.returns_right_last 2)
    exact hleft
  constructor
  · intro hret
    have hleft := hstart hret
    obtain rfl | ⟨cs, c, rfl⟩ := before.eq_nil_or_concat'
    · refine ⟨rfl, ?_⟩
      obtain rfl | ⟨bs', b, rfl⟩ := bs.eq_nil_or_concat'
      · rfl
      · obtain ⟨i, xs', rfl, hprev⟩ := h.returns_left_prev (Nat.le_refl 2)
        obtain ⟨_, s1, hplace, m, -, -, hc, -⟩ := hleft.and hprev
        have hmem := h.currLine_notMem.1
        rw [← (Editor.position_of_place hplace).1, hc] at hmem
        simp at hmem
    · exact absurd hleft (h.left_leaves hw)
  · rintro ⟨rfl, rfl⟩ fuel hfuel
    rw [returns_bind]
    refine (h.returns_right_last fuel).mono fun _ s1 hs1 => ?_
    subst hs1
    exact (h.returns_left_first fuel).mono fun _ s2 hs2 => by rw [hs2]

/-- Over a character the way back is found even where it is cut in two on the way. -/
theorem Views.leftRight_over_iff {cs : List Character} {c : Character}
    (h : Views t s ⟨bs, bytesOf (cs ++ [c]), bytesOf after, as⟩ xs ys n) (hw : s.eeChinese = true) :
    LeftRight s ↔ ¬ ∃ b low, cs ++ [c] = [.single b low] := by
  constructor
  · rintro hret ⟨b, low, hb⟩
    have hret := hret 2 (Nat.le_refl 2)
    rw [returns_bind] at hret
    rw [hb] at h
    exact h.left_fault hw 2 _ hret
  · intro hne fuel hfuel
    rw [returns_bind]
    by_cases hsafe : LeftSafe (cs ++ [c])
    · refine (h.returns_left_over hw hsafe hfuel).mono fun _ s1 ⟨h1, hm1, hc1⟩ => ?_
      rw [← bytesOf_cons] at h1
      refine (h1.returns_right_over (hm1.eeChinese.trans hw) hfuel).mono fun _ s2 ⟨h2, _, hc2⟩ => ?_
      rw [← bytesOf_snoc] at h2
      exact (h.same_place_iff h2 (hc2.trans hc1)).mpr rfl
    · obtain hb | ⟨l, a, b, hl, ha, -⟩ := not_leftSafe hsafe
      · exact absurd hb hne
      rw [hl] at h
      refine (h.returns_left_unsafe hw ha hfuel).mono fun _ s1 ⟨h1, hm1, hc1⟩ => ?_
      refine (h1.returns_right hfuel (show l ++ [a, b] ++ bytesOf after = _ by simp) ?_).mono
        fun _ s2 ⟨h2, _, hc2, _⟩ => ?_
      · simp [stepRight, hm1.eeChinese.trans hw, ha]
      · exact (h.same_place_iff h2 (hc2.trans hc1)).mpr rfl

/-- Across the start of a line the way back is found. -/
theorem Views.leftRight_start {b : List UInt8} (h : Views t s ⟨bs ++ [b], [], r, as⟩ xs ys n) :
    LeftRight s := by
  intro fuel hfuel
  obtain ⟨i, xs', rfl, hleft⟩ := h.returns_left_prev hfuel
  rw [returns_bind]
  refine hleft.mono fun _ s1 ⟨m, h1, hm1, hc1, _⟩ => ?_
  obtain ⟨j, ys', hys, hright⟩ := h1.returns_right_next hfuel
  obtain ⟨rfl, rfl⟩ := List.cons_eq_cons.mp hys
  refine hright.mono fun _ s2 ⟨n', h2, hm2, hc2, _⟩ => ?_
  have hn : n' = n := by
    have := h2.curr
    rw [hc2, hm2.heap, hm1.heap, h.curr] at this
    exact (Option.some.inj this).symm
  subst hn
  rw [Editor.place, Editor.place, hc2, h2.point_eq, h2.position_eq, h.point_eq, h.position_eq]

/-- At the start of the text a step left does nothing, and the step right that follows moves unless
the text is empty. -/
theorem Views.leftRight_first_iff (h : Views t s ⟨[], [], bytesOf after, as⟩ xs ys n)
    (hw : s.eeChinese = true) : LeftRight s ↔ after = [] ∧ as = [] := by
  constructor
  · intro hret
    have hret := hret 2 (Nat.le_refl 2)
    rw [returns_bind] at hret
    obtain ⟨_, s1, hright, rfl⟩ := hret.and (h.returns_left_first 2)
    cases after with
    | cons c cs =>
      obtain ⟨_, s2, hplace, h2, -⟩ := hright.and (h.returns_right_over hw (Nat.le_refl 2))
      have hpos := (Editor.position_of_place hplace).2
      rw [h2.position_eq, h.position_eq, List.length_append] at hpos
      have hc := c.bytes_pos
      simp only [List.length_nil] at hpos
      omega
    | nil =>
      refine ⟨rfl, ?_⟩
      cases as with
      | nil => rfl
      | cons a as =>
        obtain ⟨i, ys', rfl, hnext⟩ := h.returns_right_next (Nat.le_refl 2)
        obtain ⟨_, s2, hplace, m, -, -, hc, -⟩ := hright.and hnext
        have hmem := h.currLine_notMem.2
        rw [← (Editor.position_of_place hplace).1, hc] at hmem
        simp at hmem
  · rintro ⟨rfl, rfl⟩ fuel hfuel
    rw [returns_bind]
    refine (h.returns_left_first fuel).mono fun _ s1 hs1 => ?_
    subst hs1
    exact (h.returns_right_last fuel).mono fun _ s2 hs2 => by rw [hs2]

/-! ### Backspace -/

theorem Views.text_eq {z : Zipper} (h : Views t s z xs ys n) : s.text = z.text := h.shows.text_eq

theorem Views.deletes_iff {cs : List Character} {c : Character}
    (h : Views t s ⟨bs, bytesOf (cs ++ [c]), bytesOf after, as⟩ xs ys n) (hw : s.eeChinese = true) :
    Deletes s ⟨bs, bytesOf cs, bytesOf after, as⟩ ↔ LeftSafe (cs ++ [c]) := by
  constructor
  · intro hret
    have hret := hret 2 (Nat.le_refl 2)
    by_contra hsafe
    rcases not_leftSafe hsafe with ⟨b, low, hb⟩ | ⟨l, a, b, hl, ha, cs', c', hcs, hlen⟩
    · rw [hb] at h
      exact h.delete_fault hw 2 true _ hret
    · obtain ⟨-, rfl⟩ := List.append_inj' hcs rfl |>.imp_right List.singleton_inj.mp
      have hbytes : (bytesOf cs).length + 1 = l.length + 2 := by
        have := congrArg List.length hl
        rw [bytesOf_snoc, List.length_append, hlen] at this
        simpa using this
      rw [hl] at h
      have hk : StepsBack s.eeChinese (l ++ [a, b]) [a, b].length :=
        .inr ⟨l, a, b, rfl, by simp [stepLeft, hw, ha]⟩
      obtain ⟨_, s', ⟨-, -, hpos⟩, n', h', -⟩ := hret.and (h.returns_delete (Nat.le_refl 2) hk true)
      rw [h'.position_eq] at hpos
      dsimp only at hpos
      omega
  · intro hsafe fuel hfuel
    have hk := hsafe.stepsBack
    rw [bytesOf_snoc] at h hk
    refine (h.returns_delete hfuel (hw ▸ hk) true).mono fun _ s' hpost => ?_
    obtain ⟨n', h', hc⟩ := hpost
    exact ⟨h'.text_eq, hc, h'.position_eq⟩

/-! ### All of it -/

/-- In 16-bit mode the steps and backspace go by whole characters, and look at no byte in front of
the line, just where the bytes in front of the cursor are not ambiguous and the cursor is not at an
end of the text. -/
theorem boundaries_respected_iff (t : Prop) (s : Editor) (bs as : List (List UInt8))
    (before after : List Character) (xs ys : List ℕ) (n : Node)
    (h : Views t s ⟨bs, bytesOf before, bytesOf after, as⟩ xs ys n) (hw : s.eeChinese = true) :
    (RightLeft s ∧ LeftRight s ∧
      ∀ cs c, before = cs ++ [c] → Deletes s ⟨bs, bytesOf cs, bytesOf after, as⟩) ↔
    LeftSafe before ∧ (∀ c cs, after = c :: cs → LeftSafe (before ++ [c])) ∧
      (after = [] → as = [] → before = [] ∧ bs = []) ∧
      (before = [] → bs = [] → after = [] ∧ as = []) := by
  constructor
  · rintro ⟨hrl, hlr, hdel⟩
    refine ⟨?_, ?_, ?_, ?_⟩
    · intro cs b low hb
      subst hb
      exact ((h.deletes_iff hw).mp (hdel cs _ rfl)) cs b low rfl
    · rintro c cs rfl
      exact (h.rightLeft_over_iff hw).mp hrl
    · rintro rfl rfl
      exact (h.rightLeft_last_iff hw).mp hrl
    · rintro rfl rfl
      exact (h.leftRight_first_iff hw).mp hlr
  · rintro ⟨hsafe, hnext, hlast, hfirst⟩
    refine ⟨?_, ?_, ?_⟩
    · cases after with
      | cons c cs => exact (h.rightLeft_over_iff hw).mpr (hnext c cs rfl)
      | nil =>
        cases as with
        | nil => exact (h.rightLeft_last_iff hw).mpr (hlast rfl rfl)
        | cons a as => exact h.rightLeft_end
    · obtain rfl | ⟨cs, c, rfl⟩ := before.eq_nil_or_concat'
      · obtain rfl | ⟨bs, b, rfl⟩ := bs.eq_nil_or_concat'
        · exact (h.leftRight_first_iff hw).mpr (hfirst rfl rfl)
        · exact h.leftRight_start
      · refine (h.leftRight_over_iff hw).mpr ?_
        rintro ⟨b, low, hb⟩
        obtain ⟨cs', c', hcs, -⟩ := hsafe [] b low hb
        simp at hcs
    · rintro cs c rfl
      exact (h.deletes_iff hw).mpr hsafe

/-- The only node of a text of one line. -/
def Node.sole (line : List UInt8) : Node where
  line := 1
  bytes := line ++ [0]
  lineNumber := 1
  lineLength := line.length + 1
  maxLength := line.length + 1
  next := none
  prev := none

/-- A text of one line in 16-bit mode, with the cursor behind `l`. -/
def Editor.oneLine (l r : List UInt8) : Editor :=
  { Editor.initial (cLocale 0) 23 80 with
    heap := Function.update (fun _ => none) 0 (some (Node.sole (l ++ r)))
    point := ⟨1, l.length⟩
    position := l.length + 1
    eeChinese := true }

theorem views_oneLine (l r : List UInt8) :
    Views True (Editor.oneLine l r) ⟨[], l, r, []⟩ [] [] (Node.sole (l ++ r)) := by
  have hold : Holds True (Node.sole (l ++ r)) (l ++ r) [0] := ⟨rfl, rfl, rfl, by simp, fun _ => rfl⟩
  refine ⟨⟨⟨⟨⟨_, rfl, rfl, rfl, trivial⟩, by simp, fun i hi n hn => ?_⟩, rfl, fun i hi => ?_,
    List.mem_singleton_self 0, rfl, Nat.le_add_left 1 _, ?_, rfl, rfl⟩, rfl, rfl, hold.content, rfl⟩,
    ⟨show (8 : ℤ) ≤ 80 by decide, rfl⟩⟩
  · obtain rfl := List.mem_singleton.mp hi
    obtain rfl := Option.some.inj hn
    exact hold.ok
  · obtain rfl := List.mem_singleton.mp hi
    exact Nat.zero_lt_two
  · change l.length + 1 ≤ (l ++ r).length + 1
    rw [List.length_append]
    omega

/-- A text of two lines in 8-bit mode, with the cursor at its start. -/
def Editor.twoLines (line next : List UInt8) : Editor :=
  { (Editor.oneLine [] line).narrowed with
    heap := Function.update (Function.update (fun _ => none)
      0 (some { Node.sole line with next := some 2 }))
      2 (some { Node.sole next with line := 3, lineNumber := 2, prev := some 0 })
    fresh := 4 }

theorem shows_twoLines (line next : List UInt8) :
    Shows True (Editor.twoLines line next) ⟨[], [], line, [next]⟩ [] [2]
      { Node.sole line with next := some 2 } := by
  have hold : ∀ (l : List UInt8) (m : Node), m.bytes = l ++ [0] → m.lineLength = l.length + 1 →
      m.maxLength = l.length + 1 → Holds True m l [0] :=
    fun l m hb hl hm => ⟨hb, hl, hm, by simp, fun _ => rfl⟩
  have hnodup : [0, 2].Nodup := by decide
  refine ⟨⟨⟨⟨_, rfl, rfl, rfl, _, rfl, rfl, rfl, trivial⟩, hnodup, fun i hi n hn => ?_⟩, rfl, fun i hi => ?_,
    List.mem_cons_self, rfl, Nat.le_refl 1, Nat.le_add_left 1 _, rfl, rfl⟩, rfl, ?_, ?_, rfl⟩
  · rcases List.mem_pair.mp hi with rfl | rfl
    · obtain rfl := Option.some.inj hn
      exact (hold line _ rfl rfl rfl).ok
    · obtain rfl := Option.some.inj hn
      exact (hold next _ rfl rfl rfl).ok
  · rcases List.mem_pair.mp hi with rfl | rfl
    · exact Nat.zero_lt_succ 3
    · exact Nat.lt_of_sub_eq_succ rfl
  · exact congrArg (fun x => [x]) (hold next _ rfl rfl rfl).content
  · exact (hold line _ rfl rfl rfl).content

theorem leftSafe_of_low (cs : List Character) {c d : Character} (h : c.last ≤ 127) :
    LeftSafe (cs ++ [c] ++ [d]) := by
  intro cs' b low heq
  exact ⟨cs, c, (List.append_inj' heq rfl).1.symm, h⟩

/-- Between ASCII characters behind a character whose second byte is low. -/
theorem boundaries_respected_after_low_trail :
    RightLeft (Editor.oneLine [164, 64, 97] [98]) ∧ LeftRight (Editor.oneLine [164, 64, 97] [98]) ∧
      Deletes (Editor.oneLine [164, 64, 97] [98]) ⟨[], [164, 64], [98], []⟩ := by
  let han : Character := .double 164 64 (by decide) (by decide)
  let a : Character := .single 97 (by decide)
  let b : Character := .single 98 (by decide)
  have hnext : ∀ c cs, [b] = c :: cs → LeftSafe ([han, a] ++ [c]) := by
    rintro c cs heq
    obtain ⟨rfl, -⟩ := List.cons_eq_cons.mp heq
    exact leftSafe_of_low [han] (show (97 : UInt8) ≤ 127 by decide)
  obtain ⟨hrl, hlr, hdel⟩ := (boundaries_respected_iff True (Editor.oneLine [164, 64, 97] [98]) [] []
    [han, a] [b] [] [] _ (views_oneLine _ _) rfl).mpr
      ⟨leftSafe_of_low [] (show (64 : UInt8) ≤ 127 by decide), hnext, by simp, by simp⟩
  exact ⟨hrl, hlr, hdel [han] a rfl⟩

/-- Behind a character whose second byte is high, backspace takes half of it along. -/
theorem backspace_cuts_character :
    Views True (Editor.oneLine [164, 164, 97] []) ⟨[], [164, 164, 97], [], []⟩ [] []
        (Node.sole [164, 164, 97]) ∧
      ((delete 2 true (Editor.oneLine [164, 164, 97] [])).toOption.map fun r => r.2.text) =
        some [[164]] ∧
      ¬ Deletes (Editor.oneLine [164, 164, 97] []) ⟨[], [164, 164], [], []⟩ := by
  have hrun : ((delete 2 true (Editor.oneLine [164, 164, 97] [])).toOption.map fun r => r.2.text) =
      some [[164]] := by decide
  refine ⟨views_oneLine _ _, hrun, fun hdel => ?_⟩
  obtain ⟨_, s', hs', htext, -⟩ := hdel 2 (Nat.le_refl 2)
  rw [hs'] at hrun
  simp only [Except.toOption, Option.map_some, htext, Zipper.text] at hrun
  simp at hrun

end BsdAdditions.Ee
