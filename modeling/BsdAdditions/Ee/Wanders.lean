import BsdAdditions.Common.Relates
import BsdAdditions.Ee.ReadSound

/-! The number in `absolute_lin` against the place of the current line in the list. Only the links
of the lines matter for it, so nothing is asked of the cursor or of what the lines hold. -/
namespace BsdAdditions.Ee
open Common Common.Prog

/-- In this list of lines, `absolute_lin` is off by `d`. -/
def Off (ids : List ℕ) (d : ℤ) (s : Editor) : Prop :=
  Linked s ids ∧ ∃ k : ℕ, ids[k]? = some s.currLine ∧ s.absoluteLin = 1 + k + d

/-! ### What may change -/

/-- Only what the lines hold changes. -/
structure Stays (s s' : Editor) : Prop where
  links : ∀ i n, s.heap i = some n → ∃ n', s'.heap i = some n' ∧ SameLinks n n'
  fresh : s.fresh ≤ s'.fresh
  first : s'.firstLine = s.firstLine
  curr : s'.currLine = s.currLine
  tmp : s'.tmpLine = s.tmpLine
  lin : s'.absoluteLin = s.absoluteLin
  file : s'.inputFile = s.inputFile

instance : IsPreorder Editor Stays where
  refl s := ⟨fun _ n hn => ⟨n, hn, rfl, rfl⟩, Nat.le_refl _, rfl, rfl, rfl, rfl, rfl⟩
  trans s t u h h' := by
    refine ⟨fun i n hn => ?_, Nat.le_trans h.fresh h'.fresh, h'.first.trans h.first,
      h'.curr.trans h.curr, h'.tmp.trans h.tmp, h'.lin.trans h.lin, h'.file.trans h.file⟩
    obtain ⟨n1, hn1, hl1⟩ := h.links i n hn
    obtain ⟨n2, hn2, hl2⟩ := h'.links i n1 hn1
    exact ⟨n2, hn2, hl1.trans hl2⟩

/-- The current line moves along the list, and `absolute_lin` with it. -/
structure Wanders (s s' : Editor) : Prop where
  off : ∀ ids d, Off ids d s → Off ids d s'
  tmp : s'.tmpLine = s.tmpLine
  file : s'.inputFile = s.inputFile

instance : IsPreorder Editor Wanders where
  refl _ := ⟨fun _ _ => id, rfl, rfl⟩
  trans _ _ _ h h' :=
    ⟨fun ids d hs => h'.off ids d (h.off ids d hs), h'.tmp.trans h.tmp, h'.file.trans h.file⟩

/-- The list itself may change. -/
def Tracks (s s' : Editor) : Prop :=
  ∀ ids d, Off ids d s → (∃ ids', Off ids' d s') ∧ s'.inputFile = s.inputFile

instance : IsPreorder Editor Tracks where
  refl _ := fun ids _ h => ⟨⟨ids, h⟩, rfl⟩
  trans _ _ _ h h' := fun ids d hs => by
    obtain ⟨⟨ids', hs'⟩, hfile⟩ := h ids d hs
    exact ⟨(h' ids' d hs').1, (h' ids' d hs').2.trans hfile⟩

/-- What the links of the lines are kept in, and the numbers that belong to them. -/
def Editor.spine (s : Editor) : (ℕ → Option Node) × ℕ × ℕ × ℕ × ℕ × ℤ × Bool :=
  (s.heap, s.fresh, s.firstLine, s.currLine, s.tmpLine, s.absoluteLin, s.inputFile)

section Relations
variable {s s' : Editor} {ids : List ℕ} {d : ℤ}

theorem Stays.of_spine (h : s'.spine = s.spine) : Stays s s' := by
  simp only [Editor.spine, Prod.mk.injEq] at h
  obtain ⟨hheap, hfresh, hfirst, hcurr, htmp, hlin, hfile⟩ := h
  refine ⟨fun i n hn => ⟨n, ?_, rfl, rfl⟩, Nat.le_of_eq hfresh.symm, hfirst, hcurr, htmp, hlin, hfile⟩
  rw [hheap, hn]

/-- One node is replaced by another with its links. -/
theorem Stays.setNode {s0 : Editor} {i : ℕ} {n n' : Node} (h : Stays s0 s) (hn : s0.heap i = some n)
    (hlinks : SameLinks n n') : Stays s0 (s.setNode i n') := by
  refine ⟨fun j m hm => ?_, h.fresh, h.first, h.curr, h.tmp, h.lin, h.file⟩
  by_cases hj : j = i
  · subst hj
    obtain rfl : n = m := by simpa [hn] using hm
    exact ⟨n', by simp, hlinks⟩
  · obtain ⟨m', hm', hl⟩ := h.links j m hm
    exact ⟨m', by simp [hj, hm'], hl⟩

theorem Linked.stays (h : Linked s ids) (hs : Stays s s') : Linked s' ids where
  chain := h.chain.of_links fun i _ n hn => hs.links i n hn
  nodup := h.nodup
  first := hs.first ▸ h.first
  bound i hi := Nat.lt_of_lt_of_le (h.bound i hi) hs.fresh

theorem Off.stays (h : Off ids d s) (hs : Stays s s') : Off ids d s' := by
  obtain ⟨hlinked, k, hk, hlin⟩ := h
  exact ⟨hlinked.stays hs, k, hs.curr ▸ hk, hs.lin ▸ hlin⟩

theorem Stays.wanders (h : Stays s s') : Wanders s s' := ⟨fun _ _ hs => hs.stays h, h.tmp, h.file⟩

theorem Wanders.tracks (h : Wanders s s') : Tracks s s' :=
  fun ids d hs => ⟨⟨ids, h.off ids d hs⟩, h.file⟩

theorem Stays.tracks (h : Stays s s') : Tracks s s' := h.wanders.tracks

theorem Wanders.of_spine (h : s'.spine = s.spine) : Wanders s s' := (Stays.of_spine h).wanders

theorem Tracks.of_spine (h : s'.spine = s.spine) : Tracks s s' := (Stays.of_spine h).tracks

end Relations

/-! ### The links as a list -/

section Chain
variable {heap : ℕ → Option Node} {ids : List ℕ} {i k : ℕ} {n : Node}

theorem Chain.getElem?_next {p : Option ℕ} (h : Chain heap p ids) (hk : ids[k]? = some i)
    (hn : heap i = some n) : ids[k + 1]? = n.next := by
  induction ids generalizing p k with
  | nil => simp at hk
  | cons j is ih =>
    obtain ⟨m, hm, -, hnext, hc⟩ := h
    cases k with
    | zero =>
      obtain rfl : j = i := by simpa using hk
      obtain rfl : m = n := by simpa [hm] using hn
      rw [hnext, List.head?_eq_getElem?]
      rfl
    | succ k => exact ih hc (by simpa using hk)

theorem Chain.getElem?_prev {p : Option ℕ} (h : Chain heap p ids) (hk : ids[k]? = some i)
    (hn : heap i = some n) : n.prev = if k = 0 then p else ids[k - 1]? := by
  induction ids generalizing p k with
  | nil => simp at hk
  | cons j is ih =>
    obtain ⟨m, hm, hprev, -, hc⟩ := h
    cases k with
    | zero =>
      obtain rfl : j = i := by simpa using hk
      obtain rfl : m = n := by simpa [hm] using hn
      exact hprev
    | succ k =>
      rw [ih hc (by simpa using hk)]
      cases k <;> rfl

end Chain

section Steps
variable {s s' : Editor} {ids : List ℕ} {d : ℤ} {n : Node}

/-- The list is where it was. -/
theorem Linked.of_eq (h : Linked s ids)
    (hs : (s'.heap, s'.fresh, s'.firstLine) = (s.heap, s.fresh, s.firstLine)) : Linked s' ids := by
  simp only [Prod.mk.injEq] at hs
  obtain ⟨hheap, hfresh, hfirst⟩ := hs
  exact ⟨hheap ▸ h.chain, h.nodup, hfirst ▸ h.first, hfresh ▸ h.bound⟩

/-- One step along a link, which changes the index by `sign`. -/
def Leads (heap : ℕ → Option Node) (ids : List ℕ) (there : Node → Option ℕ) (sign : ℤ) : Prop :=
  ∀ (k j : ℕ) n j', ids[k]? = some j → heap j = some n → there n = some j' →
    ∃ k' : ℕ, ids[k']? = some j' ∧ (k' : ℤ) = k + sign

theorem Linked.leads_next (h : Linked s ids) : Leads s.heap ids Node.next 1 := by
  intro k j n j' hk hn hj'
  exact ⟨k + 1, (h.chain.getElem?_next hk hn).trans hj', by push_cast; rfl⟩

theorem Linked.leads_prev (h : Linked s ids) : Leads s.heap ids Node.prev (-1) := by
  intro k j n j' hk hn hj'
  have hprev := h.chain.getElem?_prev hk hn
  cases k with
  | zero => simp [hprev] at hj'
  | succ k => exact ⟨k, hprev.symm.trans hj', by push_cast; omega⟩

/-- A step of the cursor from line to line. -/
theorem Off.step {there : Node → Option ℕ} {sign : ℤ} (h : Off ids d s)
    (hl : Leads s.heap ids there sign) (hn : s.heap s.currLine = some n)
    (hj : there n = some s'.currLine)
    (hs : (s'.heap, s'.fresh, s'.firstLine) = (s.heap, s.fresh, s.firstLine))
    (hlin : s'.absoluteLin = s.absoluteLin + sign) : Off ids d s' := by
  obtain ⟨hlinked, k, hk, hlin0⟩ := h
  obtain ⟨k', hk', hsign⟩ := hl k _ n _ hk hn hj
  exact ⟨hlinked.of_eq hs, k', hk', by omega⟩

end Steps

/-! ### Looking -/

section Looks
variable {R : Editor → Editor → Prop} [Std.Refl R]

@[simp] theorem ensures_node (i : ℕ) (post : Node → Editor → Prop) (s : Editor) :
    Ensures (node i) post s ↔ ∀ n, s.heap i = some n → post n s := by
  simp only [node, ensures_bind, ensures_get, ensures_orFault]

@[simp] theorem ensures_curr (post : Node → Editor → Prop) (s : Editor) :
    Ensures curr post s ↔ ∀ n, s.heap s.currLine = some n → post n s := by
  simp only [curr, ensures_bind, ensures_get, ensures_node]

theorem relates_node (i : ℕ) : Relates R (node i) :=
  fun s => (ensures_node i _ s).mpr fun _ _ => refl s

theorem relates_curr : Relates R curr := fun s => (ensures_curr _ s).mpr fun _ _ => refl s

variable [IsTrans Editor R]

theorem relates_deref (p : Ptr) : Relates R (deref p) := relates_curr.bind fun _ => Relates.orFault _

theorem relates_atPoint : Relates R atPoint := Relates.get.bind fun _ => relates_deref _

theorem relates_wideBefore : Relates R wideBefore :=
  Relates.get.bind fun _ => Relates.ite
    ((Relates.orFault _).bind fun _ => (relates_deref _).bind fun _ => Relates.pure _) (Relates.pure _)

theorem relates_wideAt : Relates R wideAt :=
  Relates.get.bind fun _ => Relates.ite
    ((relates_deref _).bind fun _ => relates_curr.bind fun _ => Relates.pure _) (Relates.pure _)

theorem relates_beforeEnd : Relates R beforeEnd :=
  Relates.get.bind fun _ => relates_curr.bind fun _ => Relates.pure _

theorem relates_offStart : Relates R offStart :=
  Relates.get.bind fun _ => relates_curr.bind fun _ => Relates.pure _

theorem relates_atBlank : Relates R atBlank := relates_atPoint.bind fun _ => Relates.pure _

theorem relates_insideOn (blank : Bool) : Relates R (insideOn blank) :=
  Relates.get.bind fun _ => Relates.ite (relates_atBlank.bind fun _ => Relates.pure _) (Relates.pure _)

end Looks

/-! ### The screen -/

theorem stays_midscreenWith {scan : Ptr → Ed Unit} (hscan : ∀ p, Relates Stays (scan p)) (line : ℤ)
    (pnt : Ptr) : Relates Stays (midscreenWith scan line pnt) := by
  refine Relates.get_bind fun s => ?_
  rw [ensures_bind, ensures_orFault]
  intro i _
  exact Relates.after ((ensures_set _ _ _).mpr (.of_spine rfl)) fun _ => hscan pnt

theorem stays_scanline (fuel : ℕ) (pos : Ptr) : Relates Stays (scanline fuel pos) := by
  induction fuel generalizing pos with
  | zero => exact Relates.outOfFuel
  | succ fuel ih =>
    refine relates_curr.bind fun n => (Relates.onlyIf Relates.fault).bind fun _ =>
      (Relates.modify fun s => .of_spine rfl).bind fun _ => Relates.get_bind fun s => ?_
    have hagain : ∀ offset line, Ensures (do
        set { s with horizOffset := offset }
        midscreenWith (scanline fuel) line s.point) (fun _ t => Stays s t) s := fun _ _ =>
      Relates.after ((ensures_set _ _ _).mpr (.of_spine rfl)) fun _ => stays_midscreenWith ih _ _
    exact ensures_ite (fun _ => hagain _ _) fun _ => ensures_ite (fun _ => hagain _ _) fun _ =>
      (ensures_pure _ _ _).mpr (refl s)

theorem stays_midscreen (fuel : ℕ) (line : ℤ) (pnt : Ptr) : Relates Stays (midscreen fuel line pnt) :=
  stays_midscreenWith (stays_scanline fuel) line pnt

/-- A change of the offset, and the screen drawn again. -/
theorem stays_offset (fuel : ℕ) (s : Editor) (offset line : ℤ) (p : Ptr) :
    Ensures (do
      set { s with horizOffset := offset }
      midscreen fuel line p) (fun _ t => Stays s t) s :=
  Relates.after ((ensures_set _ _ _).mpr (.of_spine rfl)) fun _ => stays_midscreen fuel line p

theorem stays_resetOffset (fuel : ℕ) : Relates Stays (resetOffset fuel) :=
  Relates.get_bind fun s => ensures_onlyIf (fun _ => stays_offset fuel s _ _ _) fun _ => refl s

theorem stays_syncScrPos : Relates Stays syncScrPos := Relates.modify fun _ => .of_spine rfl

theorem stays_advance (k : ℕ) : Relates Stays (advance k) := Relates.modify fun _ => .of_spine rfl

theorem stays_retreat (k : ℕ) : Relates Stays (retreat k) := by
  refine Relates.get_bind fun s => ?_
  rw [ensures_bind, ensures_orFault]
  exact fun p _ => (ensures_set _ _ _).mpr (.of_spine rfl)

theorem stays_setPoint (p : Ptr) : Relates Stays (setPoint p) := Relates.modify fun _ => .of_spine rfl

theorem stays_rescan (fuel : ℕ) :
    Relates Stays (do scanline fuel (← get).point; syncScrPos) :=
  Relates.get.bind fun _ => (stays_scanline fuel _).bind fun _ => stays_syncScrPos

theorem stays_findStep : Relates Stays findStep := by
  refine Relates.get_bind fun s => ?_
  have hset : ∀ c, Ensures (set { s with scrHorz := c } : Ed PUnit) (fun _ t => Stays s t) s :=
    fun c => (ensures_set _ _ _).mpr (.of_spine rfl)
  rw [ensures_bind]
  refine (relates_deref s.point).looks fun b => ?_
  refine ensures_ite (fun _ => ?_) fun _ => ensures_ite (fun _ => ?_) fun _ => ?_
  · exact Relates.after (hset _) fun _ => stays_advance 1
  · exact Relates.after (hset _) fun _ => stays_advance 1
  · rw [ensures_bind]
    refine relates_wideAt.looks fun w => ensures_ite (fun _ => ?_) fun _ => ?_
    · exact Relates.after (hset _) fun _ => (stays_advance 1).bind fun _ => stays_advance 1
    · exact Relates.after (hset _) fun _ => stays_advance 1

theorem stays_findPos (fuel : ℕ) : Relates Stays (findPos fuel) := by
  refine (Relates.modify fun _ => .of_spine rfl).bind fun _ =>
    (Relates.repeatWhile ?_ stays_findStep fuel).bind fun _ => Relates.get_bind fun s => ?_
  · exact Relates.get.bind fun _ => relates_curr.bind fun _ => Relates.pure _
  · exact ensures_ite (fun _ => stays_offset fuel s _ _ _) fun _ =>
      ensures_ite (fun _ => stays_offset fuel s _ _ _) fun _ => (ensures_pure _ _ _).mpr (refl s)

/-! ### Movement -/

theorem wanders_of_stays {α : Type} {m : Ed α} (h : Relates Stays m) : Relates Wanders m :=
  h.weaken fun _ _ => Stays.wanders

theorem nextline_spec (s : Editor) :
    Ensures nextline (fun _ s' => Wanders s s' ∧ s'.absoluteLin = s.absoluteLin + 1) s := by
  simp only [nextline, ensures_bind, ensures_get, ensures_curr, ensures_orFault, ensures_node,
    ensures_set]
  intro n hn i hi m _
  exact ⟨⟨fun ids d h => h.step h.1.leads_next hn hi rfl rfl, rfl, rfl⟩, trivial⟩

theorem prevline_spec (s : Editor) :
    Ensures prevline (fun _ s' => Wanders s s' ∧ s'.absoluteLin = s.absoluteLin - 1) s := by
  simp only [prevline, ensures_bind, ensures_get, ensures_curr, ensures_orFault, ensures_node,
    ensures_set]
  intro n hn i hi m _
  exact ⟨⟨fun ids d h => h.step h.1.leads_prev hn hi rfl rfl, rfl, rfl⟩, trivial⟩

theorem wanders_nextline : Relates Wanders nextline := fun s => (nextline_spec s).mono fun _ _ h => h.1

theorem wanders_prevline : Relates Wanders prevline := fun s => (prevline_spec s).mono fun _ _ h => h.1

theorem wanders_left (fuel : ℕ) (disp : Bool) : Relates Wanders (left fuel disp) := by
  refine Relates.get_bind fun s => ?_
  rw [ensures_bind, ensures_curr]
  intro n hn
  refine ensures_ite (fun _ => ?_) fun _ => ?_
  · have hback : Relates Stays (do
        onlyIf (← wideBefore) (retreat 1)
        retreat 1
        scanline fuel (← get).point
        syncScrPos) :=
      relates_wideBefore.bind fun _ => (Relates.onlyIf (stays_retreat 1)).bind fun _ =>
        (stays_retreat 1).bind fun _ => stays_rescan fuel
    exact wanders_of_stays hback s
  · cases hp : n.prev with
    | none => exact (ensures_pure _ _ _).mpr (refl s)
    | some p =>
      refine ensures_ite (fun _ => ?_) fun _ => ?_
      · simp only [ensures_bind, ensures_node, ensures_set]
        intro m _
        exact ⟨fun ids d h => h.step h.1.leads_prev hn hp rfl rfl, rfl, rfl⟩
      · exact Relates.after (wanders_prevline s) fun _ => wanders_of_stays (stays_rescan fuel)

theorem wanders_right (fuel : ℕ) (disp : Bool) : Relates Wanders (right fuel disp) := by
  refine Relates.get_bind fun s => ?_
  rw [ensures_bind, ensures_curr]
  intro n hn
  refine ensures_ite (fun _ => ?_) fun _ => ?_
  · have hforth : Relates Stays (do
        onlyIf (← wideAt) (advance 1)
        advance 1
        scanline fuel (← get).point
        syncScrPos) :=
      relates_wideAt.bind fun _ => (Relates.onlyIf (stays_advance 1)).bind fun _ =>
        (stays_advance 1).bind fun _ => stays_rescan fuel
    exact wanders_of_stays hforth s
  · cases hi : n.next with
    | none => exact (ensures_pure _ _ _).mpr (refl s)
    | some i =>
      refine ensures_ite (fun _ => ?_) fun _ => ?_
      · simp only [ensures_bind, ensures_node, ensures_set]
        intro m _
        exact ⟨fun ids d h => h.step h.1.leads_next hn hi rfl rfl, rfl, rfl⟩
      · refine Relates.after (wanders_nextline s) fun _ => wanders_of_stays ?_
        exact (Relates.modify fun _ => .of_spine rfl).bind fun _ =>
          (stays_resetOffset fuel).bind fun _ => Relates.modify fun _ => .of_spine rfl

/-- `up` and `down` move by exactly one line when there is one. -/
theorem up_spec (fuel : ℕ) (s : Editor) : Ensures (up fuel) (fun _ s' => Wanders s s' ∧
    ∀ n, s.heap s.currLine = some n → n.prev ≠ none → s'.absoluteLin = s.absoluteLin - 1) s := by
  rw [up, ensures_bind, ensures_curr]
  intro n hn
  refine ensures_onlyIf (fun _ => ?_) fun hnone => ⟨refl s, fun m hm hne => ?_⟩
  · rw [ensures_bind]
    refine (prevline_spec s).mono fun _ s1 hpost => ?_
    obtain ⟨hs1, hlin⟩ := hpost
    have hrest : Relates Stays (do setPoint (← curr).start; findPos fuel) :=
      relates_curr.bind fun _ => (stays_setPoint _).bind fun _ => stays_findPos fuel
    refine (hrest s1).mono fun _ s2 hs2 => ⟨IsTrans.trans s s1 s2 hs1 hs2.wanders, fun _ _ _ => ?_⟩
    exact hs2.lin.trans hlin
  · obtain rfl : n = m := by simpa [hn] using hm
    exact absurd hne hnone

theorem down_spec (fuel : ℕ) (s : Editor) : Ensures (down fuel) (fun _ s' => Wanders s s' ∧
    ∀ n, s.heap s.currLine = some n → n.next ≠ none → s'.absoluteLin = s.absoluteLin + 1) s := by
  rw [down, ensures_bind, ensures_curr]
  intro n hn
  refine ensures_onlyIf (fun _ => ?_) fun hnone => ⟨refl s, fun m hm hne => ?_⟩
  · rw [ensures_bind]
    refine (nextline_spec s).mono fun _ s1 hpost => ?_
    obtain ⟨hs1, hlin⟩ := hpost
    refine (stays_findPos fuel s1).mono fun _ s2 hs2 => ?_
    exact ⟨IsTrans.trans s s1 s2 hs1 hs2.wanders, fun _ _ _ => hs2.lin.trans hlin⟩
  · obtain rfl : n = m := by simpa [hn] using hm
    exact absurd hne hnone

theorem wanders_up (fuel : ℕ) : Relates Wanders (up fuel) :=
  fun s => (up_spec fuel s).mono fun _ _ h => h.1

theorem wanders_down (fuel : ℕ) : Relates Wanders (down fuel) :=
  fun s => (down_spec fuel s).mono fun _ _ h => h.1

theorem wanders_prevWord (fuel : ℕ) : Relates Wanders (prevWord fuel) := by
  have hback : ∀ blank, Relates Wanders (repeatWhile fuel (insideOn blank) (left fuel true)) :=
    fun blank => Relates.repeatWhile (relates_insideOn blank) (wanders_left fuel true) fuel
  refine Relates.get.bind fun s => Relates.ite ?_ (wanders_left fuel true)
  exact (Relates.orFault _).bind fun _ => (relates_deref _).bind fun _ =>
    (Relates.onlyIf (hback false)).bind fun _ => (hback true).bind fun _ => (hback false).bind fun _ =>
      (relates_insideOn true).bind fun _ => Relates.onlyIf (wanders_right fuel true)

theorem wanders_advWord (fuel : ℕ) : Relates Wanders (advWord fuel) := by
  refine (Relates.repeatWhile ?_ (wanders_right fuel true) fuel).bind fun _ =>
    Relates.repeatWhile ?_ (wanders_right fuel true) fuel
  · exact relates_beforeEnd.bind fun _ =>
      Relates.ite (relates_atBlank.bind fun _ => Relates.pure _) (Relates.pure _)
  · exact relates_beforeEnd.bind fun _ => Relates.ite relates_atBlank (Relates.pure _)

theorem wanders_toEnd (fuel : ℕ) : Relates Wanders (repeatWhile fuel beforeEnd (right fuel true)) :=
  Relates.repeatWhile relates_beforeEnd (wanders_right fuel true) fuel

theorem wanders_eol (fuel : ℕ) : Relates Wanders (eol fuel) :=
  relates_beforeEnd.bind fun _ => Relates.ite (wanders_toEnd fuel)
    (relates_curr.bind fun _ => Relates.onlyIf
      ((wanders_right fuel true).bind fun _ => wanders_toEnd fuel))

theorem wanders_scrPos_zero : Relates Wanders (modify fun s => { s with scrPos := 0 } : Ed Unit) :=
  Relates.modify fun _ => .of_spine rfl

theorem wanders_bol (fuel : ℕ) : Relates Wanders (bol fuel) :=
  relates_offStart.bind fun _ => Relates.ite
    (Relates.repeatWhile relates_offStart (wanders_left fuel true) fuel)
    (relates_curr.bind fun _ => Relates.onlyIf
      (wanders_scrPos_zero.bind fun _ => wanders_up fuel))

theorem wanders_advLine (fuel : ℕ) : Relates Wanders (advLine fuel) :=
  relates_offStart.bind fun _ => Relates.get.bind fun _ => Relates.ite
    ((wanders_toEnd fuel).bind fun _ => wanders_right fuel true)
    (relates_curr.bind fun _ => Relates.onlyIf
      (wanders_scrPos_zero.bind fun _ => wanders_down fuel))

/-! ### Several lines at once -/

/-- Every step counted has moved by one line. -/
theorem peek_spec {there : Node → Option ℕ} {step : Ed Unit} {sign : ℤ}
    (hstep : ∀ s, Ensures step (fun _ s' => Wanders s s' ∧ ∀ n, s.heap s.currLine = some n →
      there n ≠ none → s'.absoluteLin = s.absoluteLin - sign) s) (k : ℕ) (s : Editor) :
    Ensures (peek there step k)
      (fun i s' => Wanders s s' ∧ s'.absoluteLin = s.absoluteLin - sign * i) s := by
  induction k generalizing s with
  | zero => exact (ensures_pure _ _ _).mpr ⟨refl s, by simp⟩
  | succ k ih =>
    rw [peek, ensures_bind, ensures_curr]
    intro n hn
    refine ensures_ite (fun hne => ?_) fun _ => (ensures_pure _ _ _).mpr ⟨refl s, by simp⟩
    rw [ensures_bind]
    refine (hstep s).mono fun _ s1 hpost => ?_
    obtain ⟨hs1, hlin1⟩ := hpost
    rw [ensures_bind]
    refine (ih s1).mono fun i s2 hpost => (ensures_pure _ _ _).mpr ?_
    obtain ⟨hs2, hlin2⟩ := hpost
    refine ⟨IsTrans.trans s s1 s2 hs1 hs2, ?_⟩
    rw [hlin2, hlin1 n hn hne, Int.natCast_succ, Int.mul_add, Int.mul_one]
    omega

theorem tracks_lookAround {there : Node → Option ℕ} {step : Ed Unit} {sign : ℤ} (fuel : ℕ)
    (hstep : ∀ s, Ensures step (fun _ s' => Wanders s s' ∧ ∀ n, s.heap s.currLine = some n →
      there n ≠ none → s'.absoluteLin = s.absoluteLin - sign) s) :
    Relates Tracks (lookAround fuel there step sign) := by
  refine Relates.get_bind fun s => ?_
  simp only [ensures_bind, ensures_set]
  refine (peek_spec hstep 5 _).mono fun i s2 hpost => ?_
  obtain ⟨hs2, hlin2⟩ := hpost
  simp only [ensures_modify]
  refine (stays_scanline fuel s.point _).mono fun _ s3 hs3 ids d h => ⟨⟨ids, ?_⟩, ?_⟩
  · obtain ⟨hlinked, k, hk, hlin⟩ := h
    obtain ⟨hlinked2, -⟩ := hs2.off ids d ⟨hlinked.of_eq rfl, k, hk, hlin⟩
    refine Off.stays ?_ hs3
    refine ⟨hlinked2.of_eq rfl, k, ?_, ?_⟩
    · rw [hk]
      exact congrArg some hs2.tmp.symm
    · simp only [hlin2]
      omega
  · exact hs3.file.trans hs2.file

theorem tracks_of_wanders {α : Type} {m : Ed α} (h : Relates Wanders m) : Relates Tracks m :=
  h.weaken fun _ _ => Wanders.tracks

theorem wanders_toNextLine (fuel : ℕ) : Relates Wanders (toNextLine fuel) :=
  Relates.get.bind fun _ => relates_curr.bind fun _ => Relates.ite
    (wanders_nextline.bind fun _ => wanders_of_stays
      ((Relates.modify fun _ => .of_spine rfl).bind fun _ => stays_resetOffset fuel))
    (wanders_advLine fuel)

theorem tracks_moveRel (fuel : ℕ) (direction : Direction) (lines : ℕ) :
    Relates Tracks (moveRel fuel direction lines) := by
  cases direction with
  | up =>
    have hstart : Relates Wanders (repeatWhile fuel (do return 1 < (← get).position) (left fuel true)) :=
      Relates.repeatWhile (Relates.get.bind fun _ => Relates.pure _) (wanders_left fuel true) fuel
    refine (tracks_of_wanders wanders_scrPos_zero).bind fun _ => (tracks_of_wanders hstart).bind
      fun _ => (tracks_of_wanders (Relates.times (wanders_up fuel) lines)).bind fun _ =>
        Relates.get.bind fun _ => Relates.onlyIf (tracks_lookAround fuel fun s => ?_)
    exact up_spec fuel s
  | down =>
    refine (tracks_of_wanders (wanders_toNextLine fuel)).bind fun _ =>
      (tracks_of_wanders (Relates.times (wanders_down fuel) _)).bind fun _ =>
        Relates.get.bind fun _ => Relates.onlyIf (tracks_lookAround fuel fun s => ?_)
    simpa using down_spec fuel s

theorem relates_walkTo {R : Editor → Editor → Prop} [IsPreorder Editor R] (there : Node → Option ℕ)
    (more : Node → Bool) (fuel line i : ℕ) : Relates R (walkTo there more fuel line i) := by
  induction fuel generalizing line i with
  | zero => exact Relates.outOfFuel
  | succ fuel ih =>
    refine (relates_node line).bind fun n => ?_
    cases there n with
    | none => exact Relates.pure _
    | some j => exact Relates.ite (ih j (i + 1)) (Relates.pure _)

/-- Where a walk along a link ends. -/
structure Walked (s : Editor) (ids : List ℕ) (there : Node → Option ℕ) (more : Node → Bool)
    (sign : ℤ) (k i : ℕ) (r : ℕ × ℕ) : Prop where
  le : i ≤ r.2
  index : ∃ k' : ℕ, ids[k']? = some r.1 ∧ (k' : ℤ) = k + sign * ((r.2 : ℤ) - i)
  stop : ∃ n, s.heap r.1 = some n ∧ (there n = none ∨ more n = false)

/-- The steps counted are steps along the list. -/
theorem ensures_walkTo {s : Editor} {ids : List ℕ} {there : Node → Option ℕ} {sign : ℤ}
    (hl : Leads s.heap ids there sign) (more : Node → Bool) (fuel : ℕ) {line k : ℕ}
    (hk : ids[k]? = some line) (i : ℕ) :
    Ensures (walkTo there more fuel line i) (fun r _ => Walked s ids there more sign k i r) s := by
  induction fuel generalizing line k i with
  | zero => exact ensures_outOfFuel _
  | succ fuel ih =>
    rw [walkTo, ensures_bind, ensures_node]
    intro n hn
    have hstop : there n = none ∨ more n = false → Walked s ids there more sign k i (line, i) :=
      fun h => ⟨Nat.le_refl i, ⟨k, hk, by simp⟩, n, hn, h⟩
    cases hj : there n with
    | none => exact (ensures_pure _ _ _).mpr (hstop (.inl hj))
    | some j =>
      refine ensures_ite (fun _ => ?_) fun hmore => ?_
      · obtain ⟨k1, hk1, hsign⟩ := hl k line n j hk hn hj
        refine (ih hk1 (i + 1)).mono fun r s' hpost => ?_
        obtain ⟨hle, ⟨k', hk', hdist⟩, hend⟩ := hpost
        refine ⟨by omega, ⟨k', hk', ?_⟩, hend⟩
        have hsplit : sign * ((r.2 : ℤ) - i) = sign + sign * ((r.2 : ℤ) - ((i + 1 : ℕ) : ℤ)) := by
          rw [show (r.2 : ℤ) - i = 1 + ((r.2 : ℤ) - ((i + 1 : ℕ) : ℤ)) by push_cast; omega, Int.mul_add,
            Int.mul_one]
        omega
      · exact (ensures_pure _ _ _).mpr (hstop (.inr (by simpa using hmore)))

/-- The end of a jump. -/
theorem stays_land (fuel : ℕ) (line : ℤ) (p : Ptr) :
    Relates Stays (do midscreen fuel line p; syncScrPos) :=
  (stays_midscreen fuel line p).bind fun _ => stays_syncScrPos

/-- A jump along the list that counts its steps. -/
theorem Off.jump {s s' : Editor} {ids : List ℕ} {d : ℤ} {there : Node → Option ℕ}
    {more : Node → Bool} {sign : ℤ} {fuel : ℕ} {r : ℕ × ℕ} (h : Off ids d s)
    (hl : Leads s.heap ids there sign) (hwalk : walkTo there more fuel s.currLine 0 s = .ok (r, s))
    (hs : (s'.heap, s'.fresh, s'.firstLine) = (s.heap, s.fresh, s.firstLine))
    (hcurr : s'.currLine = r.1) (hlin' : s'.absoluteLin = s.absoluteLin + sign * r.2) :
    Off ids d s' := by
  obtain ⟨hlinked, k, hk, hlin⟩ := h
  obtain ⟨k', hk', hdist⟩ := (ensures_walkTo hl more fuel hk 0 r s hwalk).index
  refine ⟨hlinked.of_eq hs, k', hcurr ▸ hk', ?_⟩
  rw [Int.natCast_zero, Int.sub_zero] at hdist
  omega

theorem wanders_bottom (fuel : ℕ) : Relates Wanders (bottom fuel) := by
  refine Relates.get_bind fun s => ?_
  rw [ensures_bind]
  intro r s1 hwalk
  obtain rfl : s = s1 := relates_walkTo _ _ _ _ _ s r s1 hwalk
  rw [ensures_bind, ensures_node]
  intro m _
  refine Relates.after ((ensures_set _ _ _).mpr ⟨fun ids d h => ?_, rfl, rfl⟩)
    fun _ => wanders_of_stays (stays_land fuel _ _)
  exact h.jump h.1.leads_next hwalk rfl rfl (by simp)

theorem wanders_top (fuel : ℕ) : Relates Wanders (top fuel) := by
  refine Relates.get_bind fun s => ?_
  rw [ensures_bind]
  intro r s1 hwalk
  obtain rfl : s = s1 := relates_walkTo _ _ _ _ _ s r s1 hwalk
  rw [ensures_bind, ensures_node]
  intro m _
  refine Relates.after ((ensures_set _ _ _).mpr ⟨fun ids d h => ?_, rfl, rfl⟩)
    fun _ => wanders_of_stays (stays_land fuel _ _)
  exact h.jump h.1.leads_prev hwalk rfl rfl (by simp; omega)

/-! ### Searching -/

theorem relates_searchFrom {R : Editor → Editor → Prop} [IsPreorder Editor R] (fold : UInt8 → UInt8)
    (str : List UInt8) (fuel line : ℕ) (p : Ptr) (iter moved : ℕ) :
    Relates R (searchFrom fold str fuel line p iter moved) := by
  induction fuel generalizing line p iter moved with
  | zero => exact Relates.outOfFuel
  | succ fuel ih =>
    refine (relates_node line).bind fun n => Relates.get.bind fun s => ?_
    cases searchLine s.host fold n str (n.lineLength - iter) p iter with
    | some r => exact Relates.pure _
    | none =>
      cases n.next with
      | none => exact Relates.pure _
      | some j => exact (relates_node j).bind fun _ => ih _ _ _ _

/-- The lines counted on the way lie between the start and the find. -/
theorem ensures_searchFrom {s : Editor} {ids : List ℕ} (hl : Leads s.heap ids Node.next 1)
    (fold : UInt8 → UInt8) (str : List UInt8) (fuel : ℕ) {line k : ℕ} (hk : ids[k]? = some line)
    (p : Ptr) (iter moved : ℕ) : Ensures (searchFrom fold str fuel line p iter moved)
      (fun r _ => ∀ f ∈ r, ∃ k' : ℕ, ids[k']? = some f.line ∧
        (k' : ℤ) = k + ((f.linesMoved : ℤ) - moved)) s := by
  induction fuel generalizing line k p iter moved with
  | zero => exact ensures_outOfFuel _
  | succ fuel ih =>
    simp only [searchFrom, ensures_bind, ensures_node, ensures_get]
    intro n hn
    cases searchLine s.host fold n str (n.lineLength - iter) p iter with
    | some r =>
      refine (ensures_pure _ _ _).mpr ?_
      rintro f ⟨⟩
      exact ⟨k, hk, by simp⟩
    | none =>
      cases hj : n.next with
      | none => exact (ensures_pure _ _ _).mpr (by simp)
      | some j =>
        simp only [ensures_bind, ensures_node]
        intro m _
        obtain ⟨k1, hk1, hsign⟩ := hl k line n j hk hn hj
        refine (ih hk1 m.start 1 (moved + 1)).mono fun r _ hr f hf => ?_
        obtain ⟨k', hk', hdist⟩ := hr f hf
        exact ⟨k', hk', by push_cast at hdist; omega⟩

theorem wanders_goRight (fuel iter : ℕ) : Relates Wanders (goRight fuel iter) :=
  Relates.repeatWhile (Relates.get.bind fun _ => Relates.pure _) (wanders_right fuel true) fuel

theorem relates_findString {R : Editor → Editor → Prop} [IsPreorder Editor R] (fuel : ℕ) :
    Relates R (findString fuel) :=
  Relates.get.bind fun _ => relates_curr.bind fun _ =>
    Relates.ite (Relates.pure _) (relates_searchFrom _ _ _ _ _ _ _)

theorem findString_index {s : Editor} {ids : List ℕ} {k fuel : ℕ} {f : Found} (hlinked : Linked s ids)
    (hk : ids[k]? = some s.currLine) (hfind : findString fuel s = .ok (some f, s)) :
    ∃ k' : ℕ, ids[k']? = some f.line ∧ (k' : ℤ) = k + f.linesMoved := by
  have hens : Ensures (findString fuel) (fun r _ => ∀ f ∈ r, ∃ k' : ℕ, ids[k']? = some f.line ∧
      (k' : ℤ) = k + f.linesMoved) s := by
    simp only [findString, ensures_bind, ensures_get, ensures_curr]
    intro n _
    refine ensures_ite (fun _ => (ensures_pure _ _ _).mpr (by simp)) fun _ => ?_
    simpa using ensures_searchFrom hlinked.leads_next _ _ fuel hk _ _ 0
  exact hens _ _ hfind f rfl

theorem tracks_search (fuel : ℕ) : Relates Tracks (search fuel) := by
  intro s
  rw [search, ensures_bind]
  intro r s1 hfind
  obtain rfl : s = s1 := relates_findString fuel s r s1 hfind
  cases r with
  | none => exact (ensures_pure _ _ _).mpr (refl s)
  | some f =>
    refine Relates.after ?_ fun _ => Relates.pure true
    have hright := tracks_of_wanders (wanders_goRight fuel f.iter)
    refine ensures_ite (fun _ => hright s) fun _ => ensures_ite (fun _ => ?_) fun _ => ?_
    · exact ((tracks_moveRel fuel _ _).bind fun _ => hright) s
    · rw [ensures_bind, ensures_get]
      have hjump : Wanders s { s with absoluteLin := s.absoluteLin + f.linesMoved,
                                      currLine := f.line, point := f.place, position := f.iter } := by
        refine ⟨fun ids d hoff => ?_, rfl, rfl⟩
        obtain ⟨hlinked, k, hk, hlin⟩ := hoff
        obtain ⟨k', hk', hdist⟩ := findString_index hlinked hk hfind
        exact ⟨hlinked.of_eq rfl, k', hk', by simp only; omega⟩
      refine Relates.after ((ensures_set _ _ _).mpr hjump.tracks) fun _ => tracks_of_wanders ?_
      exact wanders_of_stays ((stays_scanline fuel _).bind fun _ =>
        stays_syncScrPos.bind fun _ => stays_midscreen fuel _ _)

end BsdAdditions.Ee
