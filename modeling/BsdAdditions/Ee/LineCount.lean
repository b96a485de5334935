import BsdAdditions.Ee.Changes
import BsdAdditions.Ee.Tracks

/-! The number of the current line, as `ee` keeps it and as it would count it from the top. -/
namespace BsdAdditions.Ee
open Common Common.Prog

/-! ### Counting from the top -/

/-- The lines from a node on that come before the given one. -/
def countFrom (heap : ℕ → Option Node) (line : ℕ) : ℕ → Option ℕ → ℕ
  | 0, _ => 0
  | _ + 1, none => 0
  | fuel + 1, some i =>
    if i = line then 0
    else
      match heap i with
      | none => 0
      | some n => countFrom heap line fuel n.next + 1

/-- The number that `from_top` counts. No node has an address from `fresh` on, so the walk is long
enough. -/
def Editor.fromTop (s : Editor) : ℤ :=
  1 + countFrom s.heap s.currLine (s.fresh + 1) (some s.firstLine)

theorem Chain.countFrom_eq {heap : ℕ → Option Node} {p : Option ℕ} {ids : List ℕ} {line k fuel : ℕ}
    (h : Chain heap p ids) (hnd : ids.Nodup) (hk : ids[k]? = some line) (hfuel : k < fuel) :
    countFrom heap line fuel ids.head? = k := by
  induction ids generalizing p k fuel with
  | nil => simp at hk
  | cons i is ih =>
    obtain ⟨fuel, rfl⟩ : ∃ f, fuel = f + 1 := ⟨fuel - 1, by omega⟩
    obtain ⟨n, hn, -, hnext, hc⟩ := h
    cases k with
    | zero =>
      obtain rfl : i = line := by simpa using hk
      simp [countFrom]
    | succ k =>
      have hk' : is[k]? = some line := by simpa using hk
      have hne : i ≠ line := by
        rintro rfl
        exact (List.nodup_cons.mp hnd).1 (List.mem_of_getElem? hk')
      have hrest := ih hc (List.nodup_cons.mp hnd).2 hk' (by omega : k < fuel)
      simp [countFrom, hne, hn, hnext, hrest]

theorem Linked.fromTop_eq {s : Editor} {ids : List ℕ} {k : ℕ} (h : Linked s ids)
    (hk : ids[k]? = some s.currLine) : s.fromTop = 1 + k := by
  have hlen : k < ids.length := (List.getElem?_eq_some_iff.mp hk).1
  have hle := h.length_le
  rw [Editor.fromTop, ← h.first, h.chain.countFrom_eq h.nodup hk (by omega)]

/-- `absolute_lin` is the number of the current line. -/
def KnowsLine (s : Editor) : Prop := s.absoluteLin = s.fromTop

instance (s : Editor) : Decidable (KnowsLine s) := inferInstanceAs (Decidable (_ = _))

theorem Off.knowsLine_iff {s : Editor} {ids : List ℕ} {d : ℤ} (h : Off ids d s) :
    KnowsLine s ↔ d = 0 := by
  obtain ⟨hlinked, k, hk, hlin⟩ := h
  rw [KnowsLine, hlinked.fromTop_eq hk, hlin]
  omega

/-! ### Going to a line -/

/-- How many lines `goto_line` passes on its way. -/
def gotoDistance (fuel : ℕ) (cmdStr : List UInt8) : Ed ℕ := do
  let number : ℤ := digits cmdStr
  let s ← get
  let (line, ups) ← walkTo Node.prev (fun n => n.lineNumber > number) fuel s.currLine 0
  let (_, i) ← walkTo Node.next (fun n => n.lineNumber < number) fuel line ups
  return i

/-- The line asked for is near enough to be reached step by step. -/
def Near (fuel : ℕ) (cmdStr : List UInt8) (s : Editor) : Prop :=
  match gotoDistance fuel cmdStr s with
  | .ok (i, _) => i < 30
  | .error _ => True

instance (fuel : ℕ) (cmdStr : List UInt8) (s : Editor) : Decidable (Near fuel cmdStr s) :=
  match h : gotoDistance fuel cmdStr s with
  | .ok (i, _) => decidable_of_iff (i < 30) (by simp [Near, h])
  | .error _ => .isTrue (by simp [Near, h])

section Goto
variable {s : Editor} {ids : List ℕ} {d : ℤ}

/-- A jump leaves `absolute_lin` wrong unless it goes nowhere. -/
theorem ensures_jumpTo (hlinked : Linked s ids) {k line : ℕ} (hk : ids[k]? = some line) (fuel i : ℕ)
    (direction : Option Direction) : Ensures (jumpTo fuel line i direction) (fun _ s' =>
      Off ids (s.absoluteLin - (1 + k) + if direction = some .down then -(i : ℤ) else i) s' ∧
        s'.inputFile = s.inputFile) s := by
  rw [jumpTo, ensures_bind, ensures_get, ensures_bind, ensures_node]
  intro m _
  rw [ensures_bind, ensures_set]
  refine (stays_land fuel _ m.start _).mono fun _ s' hs' => ⟨Off.stays ?_ hs', hs'.file⟩
  refine ⟨hlinked.of_eq rfl, k, hk, ?_⟩
  split <;> simp only <;> omega

/-- `goto_line` keeps the count just when it goes step by step. -/
theorem Off.ensures_gotoLine (h : Off ids d s) (fuel : ℕ) (cmdStr : List UInt8) :
    Ensures (gotoLine fuel cmdStr) (fun _ s' => (∃ ids' d', Off ids' d' s' ∧
      (d' = d ↔ Near fuel cmdStr s)) ∧ s'.inputFile = s.inputFile) s := by
  rw [gotoLine, ensures_bind, ensures_get, ensures_bind]
  intro r s1 hwalk1
  obtain rfl : s = s1 := relates_walkTo _ _ _ _ _ s r s1 hwalk1
  obtain ⟨line, ups⟩ := r
  rw [ensures_bind]
  intro r s1 hwalk2
  obtain rfl : s = s1 := relates_walkTo _ _ _ _ _ s r s1 hwalk2
  obtain ⟨line', i⟩ := r
  have hnear : Near fuel cmdStr s ↔ i < 30 := by
    have hdist : gotoDistance fuel cmdStr s = .ok (i, s) :=
      (bind_of_ok rfl).trans ((bind_of_ok hwalk1).trans (bind_of_ok hwalk2))
    rw [Near, hdist]
  obtain ⟨hlinked, k, hk, hlin⟩ := id h
  obtain ⟨-, ⟨k1, hk1, hdist1⟩, -⟩ := ensures_walkTo hlinked.leads_prev _ fuel hk 0 _ _ hwalk1
  obtain ⟨hle, ⟨k2, hk2, hdist2⟩, -⟩ := ensures_walkTo hlinked.leads_next _ fuel hk1 ups _ _ hwalk2
  simp only at hk1 hk2 hdist1 hdist2 hle
  have hjump : ∀ direction : Option Direction,
      (((s.absoluteLin - (1 + k2) + if direction = some .down then -(i : ℤ) else i) = d) ↔ i < 30) →
      Ensures (jumpTo fuel line' i direction) (fun _ s' => (∃ ids' d', Off ids' d' s' ∧
        (d' = d ↔ Near fuel cmdStr s)) ∧ s'.inputFile = s.inputFile) s := by
    intro direction hd
    refine (ensures_jumpTo hlinked hk2 fuel i direction).mono fun _ s' hpost => ?_
    obtain ⟨h', hfile⟩ := hpost
    exact ⟨⟨ids, _, h', hd.trans hnear.symm⟩, hfile⟩
  dsimp only
  split
  case h_1 dir hdir =>
    refine ensures_ite (fun hi => ?_) fun hi => hjump _ ?_
    · refine (tracks_moveRel fuel dir i s).mono fun _ s' hs' => ?_
      obtain ⟨⟨ids', h'⟩, hfile⟩ := hs' ids d h
      exact ⟨⟨ids', d, h', by simp [hnear, hi]⟩, hfile⟩
    · -- a far line: the sign is the wrong one in both directions
      by_cases hdown : ups < i
      · simp only [if_pos hdown, if_true]
        omega
      · have hups : 0 < ups := by
          by_contra hzero
          simp [hdown, hzero] at hdir
        simp only [if_neg hdown, if_pos hups, Option.some.injEq, reduceCtorEq, if_false]
        omega
  case h_2 hnone =>
    have hdown : ¬ ups < i := fun hdown => by simp [hdown] at hnone
    have hups : ¬ 0 < ups := fun hups => by simp [hdown, hups] at hnone
    refine hjump _ ?_
    simp only [if_neg hdown, if_neg hups, reduceCtorEq, if_false]
    omega

end Goto

/-! ### Reading a file -/

theorem Fills.absoluteLin {s s' : Editor} (h : Fills s s') : s'.absoluteLin = s.absoluteLin :=
  (congrArg Editor.absoluteLin h).symm

theorem Fills.inputFile {s s' : Editor} (h : Fills s s') : s'.inputFile = s.inputFile :=
  (congrArg Editor.inputFile h).symm

/-- While a file is read, its lines come behind the line `c` that the cursor was in. -/
structure Reading (xs : List ℕ) (c : ℕ) (a : ℤ) (s : Editor) : Prop where
  list : ∃ ys, Linked s (xs ++ c :: ys) ∧ s.currLine ∈ c :: ys
  lin : s.absoluteLin = a
  tmp : s.tmpLine = c
  file : s.inputFile = false

/-- The line that the cursor was in is not the current one unless it holds something. -/
def Begun (c : ℕ) (s : Editor) : Prop :=
  s.currLine = c → ∀ n, s.heap s.currLine = some n → 2 ≤ n.lineLength

section Reading
variable {xs : List ℕ} {c : ℕ} {a : ℤ} {s s' : Editor}

theorem Reading.stays (h : Reading xs c a s) (hs : Stays s s') : Reading xs c a s' := by
  obtain ⟨⟨ys, hlinked, hcurr⟩, hlin, htmp, hfile⟩ := h
  exact ⟨⟨ys, hlinked.stays hs, hs.curr ▸ hcurr⟩, hs.lin.trans hlin, hs.tmp.trans htmp,
    hs.file.trans hfile⟩

/-- The list around the current line. -/
theorem Reading.exists_split (h : Reading xs c a s) : ∃ us vs,
    Linked s ((xs ++ us) ++ s.currLine :: vs) ∧ ∃ ys, us ++ s.currLine :: vs = c :: ys := by
  obtain ⟨ys, hlinked, hcurr⟩ := h.list
  obtain ⟨us, vs, hsplit⟩ := List.append_of_mem hcurr
  refine ⟨us, vs, ?_, ys, hsplit.symm⟩
  rwa [List.append_assoc, ← hsplit]

theorem Reading.ensures_linkRead (h : Reading xs c a s) (k : ℕ) :
    Ensures (linkRead k) (fun _ s' => Reading xs c a s' ∧ s'.currLine ≠ c) s := by
  obtain ⟨us, vs, hlinked, ys, hsplit⟩ := h.exists_split
  have hmem : s.currLine ∈ (xs ++ us) ++ s.currLine :: vs := by simp
  have hc : c ∈ (xs ++ us) ++ s.currLine :: vs := by simp [hsplit]
  obtain ⟨n, hn⟩ := hlinked.chain.exists_node hmem
  refine Ensures.of_wp (hlinked.wp_linkRead hmem hn k fun s1 m hs1 hcurr hfresh hi _ _ _ _ => ?_)
  have h1 := hlinked.insert hi (Nat.le_refl _) hfresh hs1.firstLine
  obtain ⟨ys', hys'⟩ : ∃ ys', us ++ s.currLine :: s.fresh :: vs = c :: ys' := by
    cases us with
    | nil => exact ⟨s.fresh :: vs, by simpa using (List.cons.inj hsplit).1⟩
    | cons u us => exact ⟨us ++ s.currLine :: s.fresh :: vs, by simpa using (List.cons.inj hsplit).1⟩
  rw [List.append_assoc, hys'] at h1
  refine ⟨⟨⟨ys', h1, ?_⟩, hs1.absoluteLin.trans h.lin, hs1.tmpLine.trans h.tmp,
    hs1.inputFile.trans h.file⟩, ?_⟩
  · rw [hcurr, ← hys']
    simp
  · rw [hcurr]
    exact (Nat.ne_of_lt (hlinked.bound c hc)).symm

theorem Node.write_lineLength {n n' : Node} {p : Ptr} {b : UInt8} (h : n.write p b = some n') :
    n'.lineLength = n.lineLength := by
  unfold Node.write at h
  split at h
  · obtain rfl := Option.some.inj h
    rfl
  · cases h

theorem Node.copyFrom_lineLength {n n' : Node} {p : Ptr} {bs : List UInt8}
    (h : n.copyFrom p bs = some n') : n'.lineLength = n.lineLength := by
  induction bs generalizing n p with
  | nil =>
    obtain rfl := Option.some.inj h
    rfl
  | cons b bs ih =>
    obtain ⟨m, hm, hrest⟩ := Option.bind_eq_some_iff.mp h
    exact (ih hrest).trans (Node.write_lineLength hm)

/-- The current line, as the longer line that it has become. -/
def Lengthens (k : ℕ) (s s' : Editor) : Prop :=
  Stays s s' ∧ ∀ n, s.heap s.currLine = some n →
    ∃ n', s'.heap s'.currLine = some n' ∧ n'.lineLength = n.lineLength + k

theorem lengthens_resizLine (factor : ℤ) (rpos : ℕ) (s : Editor) :
    Ensures (resizLine factor s.currLine rpos) (fun _ s' => Lengthens 0 s s') s := by
  refine (stays_resizLine factor s.currLine rpos s).and ?_
  simp only [resizLine, ensures_bind, ensures_node, ensures_get, setNode, ensures_modify, ensures_pure]
  intro n hn n0 hn0
  obtain rfl : n = n0 := by simpa [hn] using hn0
  exact ⟨_, Function.update_self .., rfl⟩

theorem Lengthens.ensures_setCurr {s s1 : Editor} {j k : ℕ} {n1 n2 : Node} (h : Lengthens j s s1)
    (hn1 : s1.heap s1.currLine = some n1) (hlinks : SameLinks n1 n2)
    (hlen : n2.lineLength = n1.lineLength + k) :
    Ensures (setCurr n2) (fun _ s' => Lengthens (j + k) s s') s1 := by
  rw [setCurr, ensures_bind, ensures_get, setNode, ensures_modify]
  refine ⟨IsTrans.trans s s1 _ h.1 (Stays.setNode (refl s1) hn1 hlinks), fun n hn => ?_⟩
  obtain ⟨m, hm, hmlen⟩ := h.2 n hn
  obtain rfl : n1 = m := by simpa [hn1] using hm
  exact ⟨n2, by simp, by omega⟩

theorem Lengthens.setPoint {s s1 : Editor} {k : ℕ} (h : Lengthens k s s1) (p : Ptr) :
    Lengthens k s { s1 with point := p } :=
  ⟨IsTrans.trans s s1 _ h.1 (.of_spine rfl), h.2⟩

theorem ensures_growCurr (k : ℕ) (s : Editor) :
    Ensures (growCurr (k + 1)) (fun _ s' => Lengthens k s s') s := by
  rw [growCurr, ensures_bind, ensures_get, ensures_bind, ensures_curr]
  intro n _
  rw [ensures_bind]
  refine (lengthens_resizLine _ _ s).mono fun p s1 hs1 => ?_
  rw [ensures_bind, Ee.setPoint, ensures_modify, ensures_bind, ensures_curr]
  intro n1 hn1
  have hset : Ensures (setCurr { n1 with lineLength := n1.lineLength + (k + 1 - 1) })
      (fun _ s' => Lengthens (0 + k) s s') { s1 with point := p } :=
    (hs1.setPoint p).ensures_setCurr hn1 ⟨rfl, rfl⟩ rfl
  rwa [Nat.zero_add] at hset

/-- What a part of the file does to the lines: it makes the current line longer, or it is a line
of its own. -/
theorem Reading.ensures_getPart (h : Reading xs c a s) (append : Bool) (part : List UInt8) :
    Ensures (getPart append part) (fun _ s' => Reading xs c a s' ∧
      if append then Lengthens part.length s s' else s'.currLine ≠ c) s := by
  have hfill : ∀ s1, Reading xs c a s1 → Ensures (do
      let s ← get
      setCurr (← orFault ((← curr).copyFrom s.point (part ++ [0])))
      setPoint (s.point.add part.length)) (fun _ s' => Reading xs c a s' ∧ Lengthens 0 s1 s') s1 := by
    intro s1 h1
    rw [ensures_bind, ensures_get, ensures_bind, ensures_curr]
    intro n hn
    rw [ensures_bind, ensures_orFault]
    intro n' hn'
    rw [ensures_bind]
    have hstart : Lengthens 0 s1 s1 := ⟨refl s1, fun m hm => ⟨m, hm, rfl⟩⟩
    refine (hstart.ensures_setCurr (k := 0) hn (Node.copyFrom_links hn')
      (Node.copyFrom_lineLength hn')).mono fun _ s2 hs2 => ?_
    rw [Ee.setPoint, ensures_modify]
    exact ⟨h1.stays (hs2.setPoint _).1, hs2.setPoint _⟩
  rw [getPart, ensures_bind]
  cases append with
  | true =>
    refine (ensures_growCurr part.length s).mono fun _ s1 hs1 => ?_
    refine (hfill s1 (h.stays hs1.1)).mono fun _ s2 hpost => ⟨hpost.1, ?_⟩
    have hs2 := hpost.2
    refine ⟨IsTrans.trans s s1 s2 hs1.1 hs2.1, fun n hn => ?_⟩
    obtain ⟨n1, hn1, hlen1⟩ := hs1.2 n hn
    obtain ⟨n2, hn2, hlen2⟩ := hs2.2 n1 hn1
    exact ⟨n2, hn2, by omega⟩
  | false =>
    refine (h.ensures_linkRead _).mono fun _ s1 hpost => ?_
    obtain ⟨h1, hne⟩ := hpost
    exact (hfill s1 h1).mono fun _ s2 hpost => ⟨hpost.1, hpost.2.1.curr ▸ hne⟩

theorem Lengthens.begun {k : ℕ} (h : Lengthens k s s') (hc : c = s.currLine → ∀ n,
    s.heap s.currLine = some n → 2 ≤ n.lineLength + k) (hex : ∃ n, s.heap s.currLine = some n) :
    Begun c s' := by
  intro hc' n' hn'
  obtain ⟨n, hn⟩ := hex
  obtain ⟨m, hm, hlen⟩ := h.2 n hn
  obtain rfl : n' = m := by simpa [hn'] using hm
  rw [hlen]
  exact hc (hc'.symm.trans h.1.curr) n hn

theorem Reading.exists_node (h : Reading xs c a s) : ∃ n, s.heap s.currLine = some n := by
  obtain ⟨ys, hlinked, hcurr⟩ := h.list
  exact hlinked.chain.exists_node (List.mem_append_right xs hcurr)

theorem length_part (inString : List UInt8) (num length : ℕ) :
    (((inString.take length).drop num).take (lineEnd inString num length - num)).length =
      lineEnd inString num length - num := by
  have hle := (List.takeWhile_sublist (p := (· ≠ 10)) (l := (inString.take length).drop num)).length_le
  rw [List.length_take, lineEnd]
  omega

/-- Once a byte of the file has been read, reading has begun. -/
theorem Reading.ensures_getLineFrom (inString : List UInt8) {length : ℕ} (fuel : ℕ) {num : ℕ}
    {append : Bool} (h : Reading xs c a s) (happend : append = true →
      Begun c s ∨ num < length ∧ ∀ n, s.heap s.currLine = some n → 1 ≤ n.lineLength) :
    Ensures (getLineFrom inString length fuel num append)
      (fun _ s' => Reading xs c a s' ∧ Begun c s') s := by
  induction fuel generalizing num append s with
  | zero => exact ensures_outOfFuel _
  | succ fuel ih =>
    rw [getLineFrom, ensures_bind]
    refine (h.ensures_getPart append _).mono fun _ s1 hpost => ?_
    obtain ⟨h1, hpart⟩ := hpost
    refine ensures_ite (fun hlt => ?_) fun hge => (ensures_pure _ _ _).mpr ⟨h1, ?_⟩
    · refine ih h1 fun htrue => ?_
      have hne : lineEnd inString num length ≠ length := Nat.ne_of_lt hlt
      simp [hne] at htrue
    · cases append with
      | false => exact fun hc => absurd hc hpart
      | true =>
        refine Lengthens.begun hpart (fun hc n hn => ?_) h.exists_node
        rw [length_part]
        rcases happend rfl with hbegun | ⟨hlt, hpos⟩
        · have := hbegun hc.symm n hn
          omega
        · have := hpos n hn
          omega

/-- The first read that brings something begins. -/
theorem Reading.ensures_readLoop (chunks : List (List UInt8)) (append : Bool) (h : Reading xs c a s)
    (happend : append = true →
      Begun c s ∨ ∀ n, s.heap s.currLine = some n → 1 ≤ n.lineLength) :
    Ensures (readLoop chunks append) (fun _ s' => Reading xs c a s' ∧
      (Begun c s ∨ canRead chunks = true → Begun c s')) s := by
  induction chunks generalizing append s with
  | nil => exact (ensures_pure _ _ _).mpr ⟨h, by simp [canRead]⟩
  | cons chunk chunks ih =>
    refine ensures_ite (fun hnil => (ensures_pure _ _ _).mpr ⟨h, by simp [canRead, hnil]⟩)
      fun hne => ?_
    have hpos : 0 < (chunk.take 512).length := by
      rw [List.length_take]
      have := List.length_pos_iff.mpr hne
      omega
    have h0 : Reading xs c a { s with inString := s.inString.fill chunk } := h.stays (.of_spine rfl)
    rw [ensures_bind, ensures_modify, ensures_bind, ensures_get, getLine, if_pos hpos, ensures_bind]
    refine (h0.ensures_getLineFrom _ _ fun htrue => ?_).mono fun append' s1 hpost => ?_
    · exact (happend htrue).imp id fun hlen => ⟨hpos, hlen⟩
    · obtain ⟨h1, hbegun⟩ := hpost
      exact (ih append' h1 fun _ => .inl hbegun).mono fun _ s2 hlater =>
        ⟨hlater.1, fun _ => hlater.2 (.inl hbegun)⟩

theorem Reading.ensures_unlinkCurr (h : Reading xs c a s) (hne : s.currLine ≠ c) :
    Ensures unlinkCurr (fun _ s' => Reading xs c a s') s := by
  obtain ⟨us, vs, hlinked, ys, hsplit⟩ := h.exists_split
  obtain ⟨us', hus⟩ : ∃ us', us = c :: us' := by
    cases us with
    | nil => exact absurd (List.cons.inj hsplit).1 hne
    | cons u us => exact ⟨us, by rw [(List.cons.inj hsplit).1]⟩
  obtain ⟨ws, p, hws⟩ : ∃ ws p, us = ws ++ [p] := by
    rcases List.eq_nil_or_concat us with hnil | ⟨ws, p, hws⟩
    · simp [hus] at hnil
    · exact ⟨ws, p, by rw [hws, List.concat_eq_append]⟩
  have hlinked' : Linked s ((xs ++ ws) ++ p :: s.currLine :: vs) := by simpa [hws] using hlinked
  obtain ⟨n, hn⟩ := hlinked'.chain.exists_node (i := s.currLine) (by simp)
  obtain ⟨m, hm⟩ := hlinked'.chain.exists_node (i := p) (by simp)
  refine Ensures.of_wp (hlinked'.wp_unlinkCurr hn hm fun s1 hs1 hcurr hfresh hr => ?_)
  have h1 := hlinked'.remove hr hfresh hs1.firstLine
  have hids : (xs ++ ws) ++ p :: vs = xs ++ c :: (us' ++ vs) := by
    have : ws ++ p :: vs = us ++ vs := by simp [hws]
    rw [List.append_assoc, this, hus, List.cons_append]
  refine ⟨⟨us' ++ vs, hids ▸ h1, ?_⟩, hs1.absoluteLin.trans h.lin, hs1.tmpLine.trans h.tmp,
    hs1.inputFile.trans h.file⟩
  have hp : p ∈ c :: us' := by
    rw [← hus, hws]
    simp
  rw [hcurr, ← List.cons_append]
  exact List.mem_append_left vs hp

/-- Making room for the file splits the line and goes back to its first part. -/
theorem ensures_openLine {ys : List ℕ} (hlinked : Linked s (xs ++ s.currLine :: ys))
    (htmp : s.tmpLine = s.currLine) (hfile : s.inputFile = false) : Ensures openLine (fun append s' =>
      Reading xs s.currLine s.absoluteLin s' ∧ (append = true → s' = s)) s := by
  rw [openLine, ensures_bind, ensures_curr]
  intro n _
  refine ensures_ite (fun _ => ?_) fun _ => (ensures_pure _ _ _).mpr
    ⟨⟨⟨ys, hlinked, List.mem_cons_self⟩, rfl, htmp, hfile⟩, fun _ => rfl⟩
  rw [ensures_bind]
  refine (hlinked.ensures_insertLine 0 false).mono fun _ s1 hpost => ?_
  obtain ⟨nod, h1⟩ := hpost
  obtain ⟨m, hm, hstart⟩ := h1.start rfl
  have hprev : m.prev = some s.currLine := h1.linked.chain.prev_eq hm
  rw [ensures_bind, left, ensures_bind, ensures_get, ensures_bind, ensures_curr, h1.curr]
  intro m' hm'
  obtain rfl : m = m' := by simpa [hm] using hm'
  rw [if_neg (not_not_intro hstart), hprev]
  simp only [if_true, ensures_bind, ensures_node, ensures_set, ensures_pure]
  intro m2 _
  refine ⟨⟨⟨nod :: ys, h1.linked.of_eq rfl, List.mem_cons_self⟩, ?_, h1.tmp.trans htmp,
    h1.file.trans hfile⟩, by simp⟩
  simp only [h1.lin]
  omega

theorem ensures_getFile {ys : List ℕ} (hlinked : Linked s (xs ++ s.currLine :: ys))
    (htmp : s.tmpLine = s.currLine) (hfile : s.inputFile = false)
    (hpos : ∀ n, s.heap s.currLine = some n → 1 ≤ n.lineLength) (chunks : List (List UInt8)) :
    Ensures (getFile chunks) (fun _ s' => Reading xs s.currLine s.absoluteLin s') s := by
  rw [getFile, ensures_bind]
  refine (ensures_openLine hlinked htmp hfile).mono fun append s1 hpost => ?_
  obtain ⟨h1, hsame⟩ := hpost
  rw [ensures_bind]
  refine (h1.ensures_readLoop chunks append fun htrue => ?_).mono fun _ s2 hpost => ?_
  · rw [hsame htrue]
    exact .inr hpos
  obtain ⟨h2, hbegun⟩ := hpost
  have hrest : Relates Stays (do
      onlyIf ((← get).inputFile = false ∧ canRead chunks) markChanged
      onlyIf ((← get).recvFile = true) (modify fun s => { s with inChar := -1 })) :=
    Relates.get.bind fun _ => (Relates.onlyIf stays_markChanged).bind fun _ =>
      Relates.get.bind fun _ => Relates.onlyIf (stays_inChar _)
  rw [ensures_bind, ensures_curr]
  intro n hn
  rw [ensures_bind]
  refine ensures_onlyIf (fun hone => ?_) fun _ => (hrest s2).mono fun _ s3 hs3 => h2.stays hs3
  -- the line that is taken away is not the one that the cursor was in
  have hne : s2.currLine ≠ s.currLine := fun hc => by
    have := hbegun (.inr hone.1) hc n hn
    omega
  exact (h2.ensures_unlinkCurr hne).mono fun _ s3 h3 => (hrest s3).mono fun _ s4 hs4 => h3.stays hs4

end Reading

/-- The line that a file is read into counts its terminator. -/
def ReadsIntoLine (s : Editor) : Prop := ∀ n, s.heap s.currLine = some n → 1 ≤ n.lineLength

instance (s : Editor) : Decidable (ReadsIntoLine s) :=
  decidable_of_iff ((s.heap s.currLine).all fun n => 1 ≤ n.lineLength) (by
    rw [ReadsIntoLine]
    cases s.heap s.currLine <;> simp)

theorem Off.ensures_readFile {s : Editor} {ids : List ℕ} {d : ℤ} (h : Off ids d s)
    (hfile : s.inputFile = false) (hpos : ReadsIntoLine s) (fuel : ℕ) (file : File) :
    Ensures (readFile fuel file) (fun _ s' => (∃ ids', Off ids' d s') ∧ s'.inputFile = false) s := by
  obtain ⟨hlinked, k, hk, hlin⟩ := h
  cases file with
  | special =>
    simp only [readFile, checkFp, ensures_bind, ensures_modify, ensures_get, ensures_set, ensures_pure]
    exact ⟨⟨ids, hlinked.of_eq rfl, k, hk, hlin⟩, hfile⟩
  | missing =>
    simp only [readFile, checkFp, ensures_bind, ensures_modify, ensures_get, ensures_set]
    exact ⟨⟨ids, hlinked.of_eq rfl, k, hk, hlin⟩, trivial⟩
  | regular chunks =>
    obtain ⟨xs, ys, rfl, hxs⟩ := Ee.exists_split hk
    simp only [readFile, checkFp, ensures_bind, ensures_modify, ensures_get, ensures_set]
    refine (ensures_getFile (s := { s with recvFile := true, tmpLine := s.currLine })
      (hlinked.of_eq rfl) rfl hfile hpos chunks).mono fun _ s1 h1 => ?_
    obtain ⟨⟨ys', hlinked1, -⟩, hlin1, htmp1, hfile1⟩ := h1
    simp only [ensures_curr, setPoint, ensures_modify, hfile1, htmp1]
    intro n _
    simp only [Bool.false_eq_true, if_false, markChanged, ensures_modify, and_true]
    refine ⟨_, hlinked1.of_eq rfl, k, ?_, ?_⟩
    · simp [← hxs]
    · simp only [hlin1, hlin]

/-! ### Deleting the whole text -/

/-- What is left when the lines from index `k` back to the first have been freed. -/
structure Freed (s s' : Editor) (k : ℕ) : Prop where
  first : s'.currLine = s.firstLine
  node : s'.heap s.firstLine = s.heap s.firstLine
  lin : s'.absoluteLin = s.absoluteLin - k
  same : (s'.fresh, s'.firstLine, s'.inputFile) = (s.fresh, s.firstLine, s.inputFile)

theorem ensures_freeBack {s : Editor} {ids : List ℕ} {k : ℕ} (fuel : ℕ) (hnd : ids.Nodup)
    (hfirst : ids.head? = some s.firstLine) (hk : ids[k]? = some s.currLine)
    (hprev : ∀ i j n, i ≤ k → ids[i]? = some j → s.heap j = some n →
      n.prev = if i = 0 then none else ids[i - 1]?) :
    Ensures (freeBack fuel) (fun _ s' => Freed s s' k) s := by
  induction fuel generalizing s k with
  | zero => exact ensures_outOfFuel _
  | succ fuel ih =>
    have hzero : ids[0]? = some s.firstLine := List.head?_eq_getElem? ▸ hfirst
    rw [freeBack, ensures_bind, ensures_get]
    refine ensures_ite (fun hne => ?_) fun heq => (ensures_pure _ _ _).mpr ?_
    · rw [ensures_bind, ensures_curr]
      intro n hn
      rw [ensures_bind, ensures_orFault]
      intro p hp
      rw [ensures_bind, ensures_set]
      cases k with
      | zero => exact absurd (Option.some.inj (hk.symm.trans hzero)) hne
      | succ k =>
        have hk' : ids[k]? = some p := (hprev (k + 1) _ n (Nat.le_refl _) hk hn).symm.trans hp
        refine (ih (s := { s with heap := Function.update s.heap s.currLine none, currLine := p,
                                  absoluteLin := s.absoluteLin - 1 })
          hfirst hk' fun i j m hi hj hm => ?_).mono fun _ s' ⟨h1, h2, h3, h4⟩ => ?_
        · refine hprev i j m (by omega) hj ?_
          by_cases hjc : j = s.currLine
          · simp [hjc] at hm
          · simpa [hjc] using hm
        · refine ⟨h1, h2.trans (Function.update_of_ne (Ne.symm hne) ..), ?_, h4⟩
          rw [h3]
          push_cast
          omega
    · have hcurr : s.currLine = s.firstLine := Classical.not_not.mp heq
      have hlen : k < ids.length := (List.getElem?_eq_some_iff.mp hk).1
      obtain rfl : k = 0 := (List.getElem?_inj hlen hnd).mp (hk.trans (hcurr ▸ hzero.symm))
      exact ⟨hcurr, rfl, by simp, rfl⟩

theorem off_singleton {s : Editor} {n : Node} {i : ℕ} {d : ℤ} (hn : s.heap i = some n)
    (hprev : n.prev = none) (hnext : n.next = none) (hfirst : s.firstLine = i)
    (hcurr : s.currLine = i) (hbound : i < s.fresh) (hlin : s.absoluteLin = 1 + d) :
    Off [i] d s := by
  refine ⟨⟨⟨n, hn, hprev, hnext, trivial⟩, by simp, by simp [hfirst], by simp [hbound]⟩, 0, ?_, ?_⟩
  · simp [hcurr]
  · simp [hlin]

/-- The current line is the last one. -/
def OnLastLine (s : Editor) : Prop := (s.heap s.currLine).bind Node.next = none

instance (s : Editor) : Decidable (OnLastLine s) := inferInstanceAs (Decidable (_ = _))

/-- Deleting the text starts at the last line but leaves the count of the current one. -/
theorem Off.ensures_deleteText {s : Editor} {ids : List ℕ} {d : ℤ} (h : Off ids d s) (fuel : ℕ) :
    Ensures (deleteText fuel) (fun _ s' => (∃ ids' d', Off ids' d' s' ∧ (d' = d ↔ OnLastLine s)) ∧
      s'.inputFile = s.inputFile) s := by
  obtain ⟨hlinked, k, hk, hlin⟩ := h
  obtain ⟨n, hn⟩ := hlinked.chain.exists_node (List.mem_of_getElem? hk)
  rw [deleteText, ensures_bind, ensures_get, ensures_bind]
  intro r s1 hwalk
  obtain rfl : s = s1 := relates_walkTo _ _ _ _ _ s r s1 hwalk
  obtain ⟨last, i⟩ := r
  obtain ⟨-, ⟨k', hk', hdist⟩, m, hm, hstop⟩ := ensures_walkTo hlinked.leads_next _ fuel hk 0 _ _ hwalk
  have hlast : m.next = none := by simpa using hstop
  have hend : ids[k' + 1]? = none := (hlinked.chain.getElem?_next hk' hm).trans hlast
  rw [ensures_bind, ensures_modify, ensures_bind]
  refine (ensures_freeBack (s := { s with currLine := last }) fuel hlinked.nodup hlinked.first hk'
    fun i j n _ hj hn => hlinked.chain.getElem?_prev hj hn).mono fun _ s2 hs2 => ?_
  have hzero : ids[0]? = some s.firstLine := List.head?_eq_getElem? ▸ hlinked.first
  have hsame := hs2.same
  simp only [Prod.mk.injEq] at hsame
  obtain ⟨hfresh, hfirst, hfile⟩ := hsame
  rw [ensures_bind, ensures_curr, hs2.first, hs2.node]
  intro n0 hn0
  have hprev : n0.prev = none := hlinked.chain.getElem?_prev hzero hn0
  rw [ensures_bind, ensures_orFault]
  intro n1 hn1
  simp only [setCurr, setNode, ensures_bind, ensures_get, ensures_modify]
  have hlt : k' < ids.length := (List.getElem?_eq_some_iff.mp hk').1
  have hle : ids.length ≤ k' + 1 := List.getElem?_eq_none_iff.mp hend
  have hlen := (List.getElem?_eq_some_iff.mp hk).1
  refine ⟨⟨[s.firstLine], d + k - k', off_singleton (n := { n1 with
    next := none, lineLength := 1, lineNumber := 1 }) ?_ ?_ rfl hfirst hs2.first ?_ ?_, ?_⟩, hfile⟩
  · rw [← hs2.first]
    exact Function.update_self ..
  · exact (Node.write_links hn1).2.trans hprev
  · exact hfresh.symm ▸ hlinked.bound _ (List.mem_of_getElem? hzero)
  · have hlin' : s2.absoluteLin = s.absoluteLin - k' := hs2.lin
    show s2.absoluteLin = _
    omega
  · rw [OnLastLine, hn, Option.bind_some, ← hlinked.chain.getElem?_next hk hn,
      List.getElem?_eq_none_iff]
    omega

/-! ### Every sequence of commands -/

/-- The commands of the keyboard and of the prompt, with the movements by pages and words and what
replaces the text. -/
inductive Command where
  | edit (op : Op)
  | page (direction : Direction) (lines : ℕ)
  | top
  | bottom
  | prevWord
  | advWord
  | advLine
  | readFile (file : File)
  | deleteText

def Command.exec (fuel : ℕ) : Command → Ed Unit
  | .edit op => op.exec fuel
  | .page direction lines => moveRel fuel direction lines
  | .top => Ee.top fuel
  | .bottom => Ee.bottom fuel
  | .prevWord => Ee.prevWord fuel
  | .advWord => Ee.advWord fuel
  | .advLine => Ee.advLine fuel
  | .readFile file => Ee.readFile fuel file
  | .deleteText => Ee.deleteText fuel

def Command.next? (s : Editor) (e : ℕ × Command) : Option Editor :=
  match e.2.exec e.1 s with
  | .ok (_, s') => some s'
  | .error _ => none

/-- A file is only read into a line that counts its terminator. -/
def Command.Sane (s : Editor) (e : ℕ × Command) : Prop :=
  match e.2 with
  | .readFile _ => ReadsIntoLine s
  | _ => True

/-- Lines are gone to step by step. -/
def Op.Counts (fuel : ℕ) (s : Editor) : Op → Prop
  | .gotoLine cmdStr => Near fuel cmdStr s
  | _ => True

/-- Lines are gone to step by step, and the text is deleted from its last line. -/
def Command.Counts (s : Editor) (e : ℕ × Command) : Prop :=
  match e.2 with
  | .edit op => op.Counts e.1 s
  | .deleteText => OnLastLine s
  | _ => True

/-- The lines are linked and the current one is among them, wherever `absolute_lin` says. -/
def Tracked (s : Editor) : Prop := (∃ ids d, Off ids d s) ∧ s.inputFile = false

theorem tracks_exec (fuel : ℕ) {op : Op} (hop : ∀ cmdStr, op ≠ .gotoLine cmdStr) :
    Relates Tracks (op.exec fuel) := by
  cases op with
  | insert character => exact (tracks_of_stays (stays_inChar _)).bind fun _ => tracks_insert fuel character
  | delete => exact (tracks_of_stays (stays_inChar 8)).bind fun _ => tracks_delete fuel true
  | insertLine => exact tracks_insertLine fuel true
  | left => exact tracks_of_wanders (wanders_left fuel true)
  | right => exact tracks_of_wanders (wanders_right fuel true)
  | up => exact tracks_of_wanders (wanders_up fuel)
  | down => exact tracks_of_wanders (wanders_down fuel)
  | bol => exact tracks_of_wanders (wanders_bol fuel)
  | eol => exact tracks_of_wanders (wanders_eol fuel)
  | delChar => exact tracks_delChar fuel
  | undelChar => exact tracks_undelChar fuel
  | delWord => exact tracks_of_stays stays_delWord
  | undelWord => exact tracks_of_stays stays_undelWord
  | delLine => exact tracks_delLine fuel
  | undelLine => exact tracks_undelLine fuel
  | search => exact (tracks_search fuel).bind fun _ => .pure _
  | searchPrompt answer => exact tracks_searchPrompt fuel answer
  | gotoLine cmdStr => exact absurd rfl (hop cmdStr)
  | format => exact tracks_format fuel
  | autoFormat => exact (tracks_typing fuel fuel).2

/-- One command: how far `absolute_lin` is off changes just when the command miscounts. -/
theorem Off.ensures_exec {s : Editor} {ids : List ℕ} {d : ℤ} (h : Off ids d s)
    (hfile : s.inputFile = false) (fuel : ℕ) (c : Command) (hsane : Command.Sane s (fuel, c)) :
    Ensures (c.exec fuel) (fun _ s' => (∃ ids' d', Off ids' d' s' ∧
      (d' = d ↔ Command.Counts s (fuel, c))) ∧ s'.inputFile = false) s := by
  have htracks : ∀ {m : Ed Unit}, Relates Tracks m → Ensures m (fun _ s' =>
      (∃ ids' d', Off ids' d' s' ∧ (d' = d ↔ True)) ∧ s'.inputFile = false) s := fun hm =>
    (hm s).mono fun _ s' hs' => by
      obtain ⟨⟨ids', h'⟩, hin⟩ := hs' ids d h
      exact ⟨⟨ids', d, h', by simp⟩, hin.trans hfile⟩
  cases c with
  | edit op =>
    by_cases hop : ∃ cmdStr, op = .gotoLine cmdStr
    · obtain ⟨cmdStr, rfl⟩ := hop
      refine (h.ensures_gotoLine fuel cmdStr).mono fun _ s' ⟨hs', hin⟩ => ⟨hs', hin.trans hfile⟩
    · have hne : ∀ cmdStr, op ≠ .gotoLine cmdStr := fun cmdStr heq => hop ⟨cmdStr, heq⟩
      have hcounts : Command.Counts s (fuel, .edit op) ↔ True := by
        cases op with
        | gotoLine cmdStr => exact absurd rfl (hne cmdStr)
        | _ => rfl
      rw [hcounts]
      exact htracks (tracks_exec fuel hne)
  | page direction lines => exact htracks (tracks_moveRel fuel direction lines)
  | top => exact htracks (tracks_of_wanders (wanders_top fuel))
  | bottom => exact htracks (tracks_of_wanders (wanders_bottom fuel))
  | prevWord => exact htracks (tracks_of_wanders (wanders_prevWord fuel))
  | advWord => exact htracks (tracks_of_wanders (wanders_advWord fuel))
  | advLine => exact htracks (tracks_of_wanders (wanders_advLine fuel))
  | readFile file =>
    refine (h.ensures_readFile hfile hsane fuel file).mono fun _ s' ⟨⟨ids', h'⟩, hin⟩ => ?_
    exact ⟨⟨ids', d, h', iff_of_true rfl trivial⟩, hin⟩
  | deleteText =>
    refine (h.ensures_deleteText fuel).mono fun _ s' ⟨hs', hin⟩ => ⟨hs', hin.trans hfile⟩

theorem Tracked.next? {s s' : Editor} {e : ℕ × Command} (h : Tracked s) (hknows : KnowsLine s)
    (hsane : Command.Sane s e) (hs' : Command.next? s e = some s') :
    Tracked s' ∧ (KnowsLine s' ↔ Command.Counts s e) := by
  obtain ⟨⟨ids, d, hoff⟩, hfile⟩ := h
  obtain ⟨fuel, c⟩ := e
  obtain rfl : d = 0 := hoff.knowsLine_iff.mp hknows
  rw [Command.next?] at hs'
  split at hs'
  case h_1 u s1 hok =>
    obtain rfl := Option.some.inj hs'
    obtain ⟨⟨ids', d', hoff', hiff⟩, hfile'⟩ := hoff.ensures_exec hfile fuel c hsane u s1 hok
    exact ⟨⟨⟨ids', d', hoff'⟩, hfile'⟩, hoff'.knowsLine_iff.trans hiff⟩
  case h_2 => cases hs'

instance (fuel : ℕ) (s : Editor) (op : Op) : Decidable (op.Counts fuel s) := by
  cases op
  case gotoLine cmdStr => exact inferInstanceAs (Decidable (Near fuel cmdStr s))
  all_goals exact .isTrue trivial

instance (s : Editor) : (e : ℕ × Command) → Decidable (Command.Counts s e)
  | (fuel, .edit op) => inferInstanceAs (Decidable (op.Counts fuel s))
  | (_, .deleteText) => inferInstanceAs (Decidable (OnLastLine s))
  | (_, .page _ _) | (_, .top) | (_, .bottom) | (_, .prevWord) | (_, .advWord) | (_, .advLine)
  | (_, .readFile _) => .isTrue trivial

instance (s : Editor) : (e : ℕ × Command) → Decidable (Command.Sane s e)
  | (_, .readFile _) => inferInstanceAs (Decidable (ReadsIntoLine s))
  | (_, .edit _) | (_, .page _ _) | (_, .top) | (_, .bottom) | (_, .prevWord) | (_, .advWord)
  | (_, .advLine) | (_, .deleteText) => .isTrue trivial

/-- `absolute_lin` is right after every command of a sequence just when each `goto_line` passes
fewer than 30 lines and each `delete_text` starts from the last line. -/
theorem knows_line_throughout_iff (s : Editor) (ids : List ℕ) (hlinked : Linked s ids)
    (hcurr : s.currLine ∈ ids) (hfile : s.inputFile = false) (hknows : KnowsLine s)
    (es : List (ℕ × Command)) (s' : Editor) (hrun : Common.run Command.next? s es = some s')
    (hsane : StepsMeet Command.next? Command.Sane s es) :
    Throughout Command.next? KnowsLine s es ↔ StepsMeet Command.next? Command.Counts s es := by
  obtain ⟨k, hk⟩ := List.getElem?_of_mem hcurr
  have hoff : Off ids (s.absoluteLin - (1 + k)) s := ⟨hlinked, k, hk, by omega⟩
  have hstart : Tracked s := ⟨⟨ids, _, hoff⟩, hfile⟩
  exact throughout_iff_stepsMeet (fun _ _ _ => Tracked.next?) hstart hknows hsane hrun

theorem knows_line_while_editing :
    Throughout Command.next? KnowsLine (Editor.initial (cLocale 0) 23 80)
      [(9, .edit (.insert 97)), (9, .edit .insertLine), (9, .readFile (.regular [[98, 10, 99]])),
        (9, .bottom), (9, .edit (.gotoLine [49])), (9, .page .down 5), (9, .deleteText)] := by
  have hsome : (Common.run Command.next? (Editor.initial (cLocale 0) 23 80)
      [(9, .edit (.insert 97)), (9, .edit .insertLine), (9, .readFile (.regular [[98, 10, 99]])),
        (9, .bottom), (9, .edit (.gotoLine [49])), (9, .page .down 5), (9, .deleteText)]).isSome = true := by
    decide +kernel
  obtain ⟨s', hs'⟩ := Option.isSome_iff_exists.mp hsome
  obtain ⟨n, hinv⟩ := inv_initial (t := True) (h := cLocale 0) (fun _ => rfl) 23 80
  refine (knows_line_throughout_iff _ [0] hinv.linked hinv.mem rfl ?_ _ s' hs' ?_).mpr ?_
  · decide +kernel
  · decide +kernel
  · decide +kernel

/-- Thirty lines are added, and the first one is asked for; or one is added, and the text is deleted
from the first. The cursor is then in the first line, and `absolute_lin` is 61 or 0. -/
theorem line_lost_after_goto_and_deleteText :
    (Common.run Command.next? (Editor.initial (cLocale 0) 23 80)
        (List.replicate 30 (40, .edit .insertLine) ++ [(40, .edit (.gotoLine [49]))])).map
      (fun s => (s.absoluteLin, s.fromTop)) = some (61, 1) ∧
    (Common.run Command.next? (Editor.initial (cLocale 0) 23 80)
        [(9, .edit .insertLine), (9, .edit .up), (9, .deleteText)]).map
      (fun s => (s.absoluteLin, s.fromTop)) = some (0, 1) := by
  constructor <;> decide +kernel

end BsdAdditions.Ee
