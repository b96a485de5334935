import Mathlib.Data.List.TakeWhile
import Mathlib.Data.Prod.Lex
import Mathlib.Order.Bounds.Basic
import BsdAdditions.Ee.Goto
import BsdAdditions.Ee.Wide

/-! `search` finds the next occurrence of the string, in the order of the text. -/
namespace BsdAdditions.Ee
open Common Common.Prog

variable {s s' : Editor} {n m : Node} {fold : UInt8 → UInt8} {str : List UInt8} {fuel : ℕ}

/-! ### Occurrences -/

/-- The places of the text where `str` stands, the text taken through `fold`. A place is the number
of a line and of a byte in it. -/
def occurrences (fold : UInt8 → UInt8) (str : List UInt8) (lines : List (List UInt8)) : Set (ℕ ×ₗ ℕ) :=
  {p | str <+: ((lines.getD (ofLex p).1 []).drop (ofLex p).2).map fold}

section Occurrences
variable {lines : List (List UInt8)} {i j : ℕ}

theorem mem_occurrences :
    toLex (i, j) ∈ occurrences fold str lines ↔ str <+: ((lines.getD i []).drop j).map fold :=
  Iff.rfl

/-- Something stands only where there is text. -/
theorem lt_of_mem_occurrences (hne : str ≠ []) (h : toLex (i, j) ∈ occurrences fold str lines) :
    i < lines.length ∧ j < (lines.getD i []).length := by
  have hpos := List.length_pos_iff.mpr hne
  have hlen := (mem_occurrences.mp h).length_le
  rw [List.length_map, List.length_drop] at hlen
  refine ⟨?_, by omega⟩
  by_contra hi
  rw [List.getD_eq_getElem?_getD, List.getElem?_eq_none (Nat.le_of_not_lt hi), Option.getD_none,
    List.length_nil] at hlen
  omega

/-- Nothing in the rest of a line: the next occurrence is in a later line. -/
theorem le_of_line_free (hne : str ≠ [])
    (hfree : ∀ d, j + d < (lines.getD i []).length → toLex (i, j + d) ∉ occurrences fold str lines)
    {q : ℕ ×ₗ ℕ} (hq : q ∈ occurrences fold str lines) (hle : toLex (i, j) ≤ q) : toLex (i + 1, 0) ≤ q := by
  obtain ⟨i', j'⟩ := q
  change toLex (i', j') ∈ _ at hq
  change toLex (i, j) ≤ toLex (i', j') at hle
  change toLex (i + 1, 0) ≤ toLex (i', j')
  rw [Prod.Lex.toLex_le_toLex] at hle ⊢
  dsimp only at hle ⊢
  rcases hle with hlt | ⟨rfl, hle⟩
  · omega
  · obtain ⟨d, rfl⟩ := Nat.exists_eq_add_of_le hle
    exact absurd hq (hfree d (lt_of_mem_occurrences hne hq).2)

theorem not_le_of_mem_occurrences (hne : str ≠ []) (hi : lines.length ≤ i) {q : ℕ ×ₗ ℕ}
    (hq : q ∈ occurrences fold str lines) : ¬ toLex (i, 0) ≤ q := by
  obtain ⟨i', j'⟩ := q
  change toLex (i', j') ∈ _ at hq
  change ¬ toLex (i, 0) ≤ toLex (i', j')
  have hlt := (lt_of_mem_occurrences hne hq).1
  rw [Prod.Lex.toLex_le_toLex]
  dsimp only
  omega

/-- The first occurrence in the rest of a line is the first in the rest of the text. -/
theorem isLeast_of_first {d : ℕ} (hmem : toLex (i, j + d) ∈ occurrences fold str lines)
    (hfree : ∀ e < d, toLex (i, j + e) ∉ occurrences fold str lines) :
    IsLeast {q ∈ occurrences fold str lines | toLex (i, j) ≤ q} (toLex (i, j + d)) := by
  constructor
  · refine ⟨hmem, ?_⟩
    rw [Prod.Lex.toLex_le_toLex]
    exact .inr ⟨rfl, Nat.le_add_right j d⟩
  · rintro ⟨i', j'⟩ ⟨hq, hle⟩
    change toLex (i', j') ∈ _ at hq
    change toLex (i, j) ≤ toLex (i', j') at hle
    change toLex (i, j + d) ≤ toLex (i', j')
    rw [Prod.Lex.toLex_le_toLex] at hle ⊢
    dsimp only at hle ⊢
    rcases hle with hlt | ⟨rfl, hle⟩
    · exact .inl hlt
    · refine .inr ⟨rfl, ?_⟩
      obtain ⟨e, rfl⟩ := Nat.exists_eq_add_of_le hle
      by_contra hlt
      exact hfree e (by omega) hq

end Occurrences

/-! ### Within a line -/

/-- The comparison stops at the terminator of the line. -/
theorem Holds.matchAt_iff {content rest : List UInt8} (h : Holds True n content rest) (host : Host)
    (hzero : fold 0 = 0) (hstr : 0 ∉ str) {block j : ℕ} (hj : j ≤ content.length) :
    matchAt host fold n ⟨block, j⟩ str = true ↔ str <+: (content.drop j).map fold := by
  induction str generalizing j with
  | nil => simp [matchAt]
  | cons c cs ih =>
    obtain ⟨hc, hcs⟩ : 0 ≠ c ∧ 0 ∉ cs := by simpa using hstr
    rw [matchAt, Bool.and_eq_true, beq_iff_eq]
    rcases Nat.lt_or_eq_of_le hj with hlt | rfl
    · have hpeek : n.peek host ⟨block, j⟩ = content[j] := by
        simp [Node.peek, h.bytes, List.getElem?_append_left hlt, hlt]
      rw [hpeek, List.drop_eq_getElem_cons hlt, List.map_cons, List.cons_prefix_cons]
      exact and_congr eq_comm (ih hcs hlt)
    · have hpeek : n.peek host ⟨block, content.length⟩ = 0 := by
        have hterm := h.term trivial
        rw [List.head?_eq_getElem?] at hterm
        rw [Node.peek, h.bytes, List.getElem?_append_right (Nat.le_refl _), Nat.sub_self, hterm, Option.getD_some]
      rw [hpeek, hzero, List.drop_length, List.map_nil, List.prefix_nil]
      exact iff_of_false (fun hand => hc hand.1) (List.cons_ne_nil c cs)

theorem Ptr.add_add (p : Ptr) (d e : ℕ) : (p.add d).add e = p.add (d + e) := by
  simp only [Ptr.add, Nat.add_assoc]

/-- A line is searched in vain, or up to the first place where the string stands. -/
theorem searchLine_cases (host : Host) (fold : UInt8 → UInt8) (n : Node) (str : List UInt8) (k : ℕ) (p : Ptr)
    (iter : ℕ) :
    (searchLine host fold n str k p iter = none ∧ ∀ d < k, matchAt host fold n (p.add d) str = false) ∨
      ∃ d < k, searchLine host fold n str k p iter = some (p.add d, iter + d) ∧
        matchAt host fold n (p.add d) str = true ∧
        ∀ e < d, matchAt host fold n (p.add e) str = false := by
  induction k generalizing p iter with
  | zero => exact .inl ⟨rfl, nofun⟩
  | succ k ih =>
    rw [searchLine]
    by_cases hhere : matchAt host fold n p str = true
    · exact .inr ⟨0, Nat.succ_pos k, by rw [if_pos hhere]; rfl, hhere, nofun⟩
    rw [if_neg hhere]
    have hfree : ∀ d : ℕ, (∀ e < d, matchAt host fold n ((p.add 1).add e) str = false) →
        ∀ e < d + 1, matchAt host fold n (p.add e) str = false := by
      intro d hrest e he
      cases e with
      | zero => exact Bool.eq_false_iff.mpr hhere
      | succ e =>
        have he' := hrest e (Nat.lt_of_succ_lt_succ he)
        rwa [Ptr.add_add, Nat.add_comm] at he'
    rcases ih (p.add 1) (iter + 1) with ⟨hnone, hrest⟩ | ⟨d, hd, hsome, hmatch, hrest⟩
    · exact .inl ⟨hnone, hfree k hrest⟩
    · refine .inr ⟨d + 1, Nat.succ_lt_succ hd, ?_, ?_, hfree d hrest⟩
      · rw [hsome, Ptr.add_add, Nat.add_comm 1 d, Nat.add_assoc, Nat.add_comm 1 d]
      · rwa [Ptr.add_add, Nat.add_comm] at hmatch

/-! ### Line after line -/

/-- A find is the first occurrence from `start` on, in a line of the list. -/
structure Found.First (f : Found) (s : Editor) (ids : List ℕ) (start : ℕ ×ₗ ℕ) (occ : Set (ℕ ×ₗ ℕ))
    (i j : ℕ) : Prop where
  line : ids[i]? = some f.line
  place : ∃ m, s.heap f.line = some m ∧ f.place = ⟨m.line, j⟩ ∧ j + 1 ≤ m.lineLength
  iter : f.iter = j + 1
  least : IsLeast {q ∈ occ | start ≤ q} (toLex (i, j))

/-- What the walk over the lines returns. -/
def Searched (s : Editor) (ids : List ℕ) (occ : Set (ℕ ×ₗ ℕ)) (i j moved : ℕ) : Option Found → Prop
  | none => ∀ q ∈ occ, ¬ toLex (i, j) ≤ q
  | some f => ∃ i' j', f.First s ids (toLex (i, j)) occ i' j' ∧ f.linesMoved + i = moved + i'

/-- A line without an occurrence is passed over. -/
theorem Searched.of_later {ids : List ℕ} {occ : Set (ℕ ×ₗ ℕ)} {i j moved : ℕ} {r : Option Found}
    (hlater : ∀ q ∈ occ, toLex (i, j) ≤ q → toLex (i + 1, 0) ≤ q)
    (h : Searched s ids occ (i + 1) 0 (moved + 1) r) : Searched s ids occ i j moved r := by
  have hle : toLex (i, j) ≤ toLex (i + 1, 0) := by
    rw [Prod.Lex.toLex_le_toLex]
    exact .inl (Nat.lt_succ_self i)
  cases r with
  | none => exact fun q hq hq' => h q hq (hlater q hq hq')
  | some f =>
    obtain ⟨i', j', ⟨hline, hplace, hiter, hleast⟩, hmoved⟩ := h
    refine ⟨i', j', ⟨hline, hplace, hiter, ⟨hleast.1.1, hle.trans hleast.1.2⟩, ?_⟩, by omega⟩
    exact fun q hq => hleast.2 ⟨hq.1, hlater q hq.1 hq.2⟩

theorem Inv.getD_text {t : Prop} {ids : List ℕ} {i line : ℕ} (h : Inv t s ids n) (hi : ids[i]? = some line)
    (hm : s.heap line = some m) : s.text.getD i [] = m.content := by
  have hlisted : Listed t s ids := ⟨h.lines, h.first, h.bound, h.narrow⟩
  rw [hlisted.text_eq, List.getD_eq_getElem?_getD, List.getElem?_map, hi, Option.map_some, Option.getD_some,
    lineAt, hm, Option.elim_some]

/-- A match in a line is an occurrence in the text. -/
theorem Inv.matchAt_iff {ids : List ℕ} {i j line : ℕ} (h : Inv True s ids n) (hzero : fold 0 = 0)
    (hstr : 0 ∉ str) (hi : ids[i]? = some line) (hm : s.heap line = some m) (hj : j + 1 ≤ m.lineLength) :
    matchAt s.host fold m ⟨m.line, j⟩ str = true ↔ toLex (i, j) ∈ occurrences fold str s.text := by
  have hok := h.lines.ok line (List.mem_of_getElem? hi) m hm
  obtain ⟨rest, hold⟩ := hok.exists_holds
  have hlen := hok.length_content
  rw [mem_occurrences, h.getD_text hi hm]
  exact hold.matchAt_iff s.host hzero hstr (by omega)

theorem Inv.returns_searchFrom {ids : List ℕ} (h : Inv True s ids n) (hzero : fold 0 = 0) (hstr : 0 ∉ str)
    (hne : str ≠ []) {i j line : ℕ} (hi : ids[i]? = some line) (hm : s.heap line = some m) {p : Ptr}
    (hp : j + 1 < m.lineLength → p = ⟨m.line, j⟩) (hfuel : ids.length ≤ i + fuel) (moved : ℕ) :
    Returns (searchFrom fold str fuel line p (j + 1) moved)
      (fun r s' => s' = s ∧ Searched s ids (occurrences fold str s.text) i j moved r) s := by
  have hlt := (List.getElem?_eq_some_iff.mp hi).1
  induction fuel generalizing i j line m p moved with
  | zero => omega
  | succ fuel ih =>
    have hok := h.lines.ok line (List.mem_of_getElem? hi) m hm
    have hlen := hok.length_content
    have hpos := hok.pos
    have hline := h.getD_text hi hm
    -- places behind `p` in the line
    have hplace : ∀ d, d < m.lineLength - (j + 1) →
        (matchAt s.host fold m (p.add d) str = true ↔ toLex (i, j + d) ∈ occurrences fold str s.text) := by
      intro d hd
      rw [hp (by omega)]
      change matchAt s.host fold m ⟨m.line, j + d⟩ str = true ↔ _
      exact h.matchAt_iff hzero hstr hi hm (by omega)
    rw [searchFrom, returns_bind, returns_node hm, returns_bind, returns_get]
    rcases searchLine_cases s.host fold m str (m.lineLength - (j + 1)) p (j + 1) with
      ⟨hnone, hfree⟩ | ⟨d, hd, hsome, hmatch, hfree⟩
    · rw [hnone]
      have hnot : ∀ d, j + d < (s.text.getD i []).length → toLex (i, j + d) ∉ occurrences fold str s.text := by
        intro d hd hocc
        rw [hline] at hd
        have hfalse := hfree d (by omega)
        rw [(hplace d (by omega)).mpr hocc] at hfalse
        cases hfalse
      have hnext := h.linked.chain.getElem?_next hi hm
      have hlater : ∀ q ∈ occurrences fold str s.text, toLex (i, j) ≤ q → toLex (i + 1, 0) ≤ q :=
        fun q hq => le_of_line_free hne hnot hq
      cases hj : m.next with
      | none =>
        have hend : s.text.length ≤ i + 1 := by
          have hlisted : Listed True s ids := ⟨h.lines, h.first, h.bound, h.narrow⟩
          rw [hlisted.text_eq, List.length_map]
          exact List.getElem?_eq_none_iff.mp (hnext.trans hj)
        exact (returns_pure _ _ _).mpr ⟨rfl, fun q hq hle =>
          not_le_of_mem_occurrences hne hend hq (hlater q hq hle)⟩
      | some k =>
        rw [hj] at hnext
        obtain ⟨m', hm', -⟩ := h.lines.exists_node (List.mem_of_getElem? hnext)
        rw [returns_bind, returns_node hm']
        refine (ih hnext hm' (fun _ => rfl) (by omega) (moved + 1) (List.getElem?_eq_some_iff.mp hnext).1).mono
          fun r s' hpost => ⟨hpost.1, hpost.2.of_later hlater⟩
    · rw [hsome]
      have hleast := isLeast_of_first ((hplace d hd).mp hmatch) fun e he hocc => by
        have hfalse := hfree e he
        rw [(hplace e (by omega)).mpr hocc] at hfalse
        cases hfalse
      refine (returns_pure _ _ _).mpr ⟨rfl, i, j + d, ⟨hi, ⟨m, hm, ?_, by omega⟩, by dsimp only; omega, hleast⟩, rfl⟩
      rw [hp (by omega)]
      rfl

/-! ### Going there -/

/-- Steps right inside a line, up to a position. -/
theorem At.returns_rightTo {t : Prop} {bs as : List (List UInt8)} {l w r : List UInt8}
    (h : At t s ⟨bs, l, w ++ r, as⟩) (hfuel : 2 ≤ fuel) {k iter : ℕ} (hk : w.length < k)
    (hiter : iter = l.length + w.length + 1) :
    Returns (repeatWhile k (do return (← get).position < iter) (right fuel true))
      (fun _ s' => At t s' ⟨bs, l ++ w, r, as⟩ ∧ Moves s s') s := by
  obtain ⟨k, rfl⟩ := Nat.exists_eq_add_of_lt hk
  have hpos : s.position = l.length + 1 := h.position_eq
  induction w generalizing l s with
  | nil =>
    rw [List.length_nil] at hiter
    rw [returns_repeatWhile_succ, returns_bind, returns_get, returns_pure, if_neg (by rw [decide_eq_true_eq]; omega),
      List.append_nil]
    exact ⟨h, rfl⟩
  | cons c w ih =>
    rw [List.length_cons] at hiter
    rw [returns_repeatWhile_succ, returns_bind, returns_get, returns_pure, if_pos (by rw [decide_eq_true_eq]; omega)]
    refine (h.returns_right hfuel).mono fun _ s1 ⟨h1, hm1, _⟩ => ?_
    have hcount : (c :: w).length + k = w.length + k + 1 := by
      rw [List.length_cons]
      omega
    rw [hcount]
    refine (ih h1 ?_ (by omega) h1.position_eq).mono fun _ s2 ⟨h2, hm2⟩ => ?_
    · rw [hiter, List.length_append, List.length_singleton]
      omega
    · rw [List.append_assoc, List.singleton_append] at h2
      exact ⟨h2, hm1.trans hm2⟩

theorem At.returns_goRight {t : Prop} {lines : List (List UInt8)} {i j j' : ℕ} (h : At t s (.place lines i j))
    (hj : j ≤ j') (hj' : j' ≤ (lines.getD i []).length) (hfuel : 2 ≤ fuel) (hk : j' - j < fuel) :
    Returns (goRight fuel (j' + 1)) (fun _ s' => At t s' (.place lines i j') ∧ Moves s s') s := by
  obtain ⟨d, rfl⟩ := Nat.exists_eq_add_of_le hj
  have hright : ((lines.getD i []).drop j).take d ++ (lines.getD i []).drop (j + d) = (lines.getD i []).drop j := by
    rw [← List.drop_drop, List.take_append_drop]
  have hleft : (lines.getD i []).take j ++ ((lines.getD i []).drop j).take d = (lines.getD i []).take (j + d) :=
    (List.take_add).symm
  have hlen : (((lines.getD i []).drop j).take d).length = d := by
    rw [List.length_take, List.length_drop]
    omega
  have hat : At t s ⟨lines.take i, (lines.getD i []).take j,
      ((lines.getD i []).drop j).take d ++ (lines.getD i []).drop (j + d), lines.drop (i + 1)⟩ := by
    rw [hright]
    exact h
  refine (hat.returns_rightTo hfuel (by omega) ?_).mono fun _ s' ⟨h', hm⟩ => ?_
  · rw [hlen, List.length_take]
    omega
  · rw [hleft] at h'
    exact ⟨h', hm⟩

/-- The cursor goes to a find, by whichever of the three ways. -/
theorem At.returns_goToFound {bs as : List (List UInt8)} {l r : List UInt8} {xs ys : List ℕ} {f : Found}
    {occ : Set (ℕ ×ₗ ℕ)} {i j : ℕ} (h : Shows True s ⟨bs, l, r, as⟩ xs ys n) (hw : Roomy s)
    (hf : f.First s (xs ++ s.currLine :: ys) (toLex (bs.length, l.length + 1)) occ i j)
    (hmoved : f.linesMoved + bs.length = 0 + i) (hfuel : 2 ≤ fuel) (hlines : ∀ line ∈ s.text, line.length < fuel) :
    Returns (goToFound fuel f) (fun _ s' => At True s' (.place s.text i j) ∧ Moves s s') s := by
  obtain ⟨hline, ⟨m, hm, hplace, hj⟩, hiter, ⟨⟨-, hstart⟩, -⟩⟩ := hf
  rw [Prod.Lex.toLex_le_toLex] at hstart
  have hat : At True s ⟨bs, l, r, as⟩ := ⟨⟨xs, ys, n, h⟩, hw⟩
  have hcursor := h.eq_place
  have htext : s.text = bs ++ (l ++ r) :: as := h.text_eq
  have hbs : xs.length = bs.length := (h.views hw).before_length
  rw [hbs] at hcursor
  have hcontent := h.inv.getD_text hline hm
  have hok := h.inv.lines.ok _ (List.mem_of_getElem? hline) m hm
  have hlen := hok.length_content
  have hlong : m.content.length < fuel := by
    have hlisted : Listed True s (xs ++ s.currLine :: ys) :=
      ⟨h.inv.lines, h.inv.first, h.inv.bound, h.inv.narrow⟩
    apply hlines
    rw [hlisted.text_eq]
    refine List.mem_map.mpr ⟨f.line, List.mem_of_getElem? hline, ?_⟩
    rw [lineAt, hm, Option.elim_some]
  rw [goToFound]
  refine returns_ite (fun h0 => ?_) fun h0 => returns_ite (fun hnear => ?_) fun _ => ?_
  · obtain rfl : i = bs.length := by omega
    rw [hcursor] at hat
    rw [hiter]
    refine hat.returns_goRight ?_ ?_ hfuel ?_
    · dsimp only at hstart
      omega
    · rw [hcontent]
      omega
    · omega
  · have hi := (List.getElem?_eq_some_iff.mp hline).1
    have has : ys.length = as.length := (h.views hw).after_length
    simp only [List.length_append, List.length_cons, hbs, has] at hi
    cases as with
    | nil =>
      rw [List.length_nil] at hi
      omega
    | cons a as =>
      have hr : r.length < fuel := by
        have hhere := hlines (l ++ r) (by simp [htext])
        rw [List.length_append] at hhere
        omega
      rw [returns_bind]
      refine (hat.returns_moveRel_down hfuel hr (by rw [List.length_cons] at hi ⊢; omega)).mono
        fun _ s1 hpost => ?_
      obtain ⟨h1, hm1⟩ := hpost
      have h1 := h1.place
      rw [← htext, show bs.length + 1 + (f.linesMoved - 1) = i by omega, ← Zipper.place_zero] at h1
      rw [hiter]
      refine (h1.returns_goRight (Nat.zero_le j) (by rw [hcontent]; omega) hfuel (by omega)).mono
        fun _ s2 hpost => ⟨hpost.1, hm1.trans hpost.2⟩
  · rw [returns_bind, returns_get, returns_bind, returns_set, returns_bind]
    have h1 : At True { s with
        absoluteLin := s.absoluteLin + f.linesMoved, currLine := f.line, point := f.place, position := f.iter }
        (.place s.text i j) := h.inv.at_place hw hline hm rfl rfl hplace hiter hj
    obtain ⟨xs1, ys1, n1, hv1⟩ := h1.views
    refine Returns.mono (hv1.scannable.returns_scanline hv1.roomy hfuel) fun _ s2 hs2 => ?_
    rw [returns_bind, syncScrPos, returns_modify]
    have h2 := (h1.of_core (Rests.of_scrolls hs2).core (h1.roomy.scroll hs2)).with_scrPos s2.scrHorz
    have hm2 := Moves.of_scrolls hs2
    obtain ⟨xs2, ys2, n2, hv2⟩ := h2.views
    have hpoint : f.place = s2.point := hs2.point.symm
    rw [hpoint]
    refine Returns.mono (hv2.scannable.returns_midscreen hv2.roomy hfuel _) fun _ s3 hs3 => ?_
    have hm3 := Moves.of_scrolls hs3
    exact ⟨h2.of_core (Rests.of_scrolls hs3).core (h2.roomy.scroll hs3), hm2.trans hm3⟩

/-! ### The whole of `search` -/

/-- Both search strings, as `search_prompt` sets them. -/
structure SearchesFor (s : Editor) (str : List UInt8) : Prop where
  free : 0 ∉ str
  srchStr : s.srchStr = some str
  uSrchStr : s.uSrchStr = some (str.map s.host.toupper)
  upper : ∀ b, s.host.toupper b = 0 → b = 0

/-- What the case mode makes of a byte. -/
def Editor.caseFold (s : Editor) : UInt8 → UInt8 := if s.caseSen then id else s.host.toupper

theorem cString_of_free (h : 0 ∉ str) : cString str = str := by
  rw [cString, List.takeWhile_eq_self_iff]
  intro b hb
  rw [decide_eq_true_eq]
  rintro rfl
  exact h hb

theorem SearchesFor.fold_zero (h : SearchesFor s str) : s.caseFold 0 = 0 ∧ 0 ∉ str.map s.caseFold := by
  rw [Editor.caseFold]
  split
  · exact ⟨rfl, by rw [List.map_id]; exact h.free⟩
  · refine ⟨s.host.toupper_zero, fun hmem => ?_⟩
    obtain ⟨b, hb, hzero⟩ := List.mem_map.mp hmem
    exact h.free (h.upper b hzero ▸ hb)

theorem SearchesFor.returns_findString (h : SearchesFor s str) (hne : str ≠ []) (hn : s.heap s.currLine = some n)
    {post : Option Found → Editor → Prop} : Returns (findString fuel) post s ↔
      Returns (searchFrom s.caseFold (str.map s.caseFold) fuel s.currLine
        (if s.position < n.lineLength then s.point.add 1 else s.point) (s.position + 1) 0) post s := by
  have hstr : cString (s.srchStr.getD []) = str := by
    rw [h.srchStr, Option.getD_some, cString_of_free h.free]
  have hchosen : (if s.caseSen then cString (s.srchStr.getD []) else cString (s.uSrchStr.getD [])) =
      str.map s.caseFold := by
    have hfree := h.fold_zero.2
    rw [Editor.caseFold] at hfree ⊢
    split at hfree
    next hc => rw [if_pos hc, if_pos hc, hstr, List.map_id]
    next hc => rw [if_neg hc, if_neg hc, h.uSrchStr, Option.getD_some, cString_of_free hfree]
  rw [findString, returns_bind, returns_get, returns_bind, returns_curr hn]
  dsimp only
  rw [hchosen, hstr, if_neg]
  · rfl
  · rintro (hnil | hnil)
    · exact hne hnil
    · exact hne (List.map_eq_nil_iff.mp hnil)

/-- The places behind the cursor where the string stands, case taken into account as the mode says. -/
def nextOccurrences (s : Editor) (str : List UInt8) (z : Zipper) : Set (ℕ ×ₗ ℕ) :=
  {q ∈ occurrences s.caseFold (str.map s.caseFold) z.text | toLex (z.before.length, z.left.length) < q}

theorem cLocale_toupper_eq_zero (fill : UInt8) {b : UInt8} (h : (cLocale fill).toupper b = 0) : b = 0 := by
  simp only [cLocale] at h
  split at h
  next hlow =>
    have hle : 97 ≤ b := by
      rw [Bool.and_eq_true, decide_eq_true_eq] at hlow
      exact hlow.1
    grind
  next => exact h

end BsdAdditions.Ee
