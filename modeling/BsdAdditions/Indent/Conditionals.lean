import BsdAdditions.Common.Run
import BsdAdditions.Indent.Main

/-! The parser states that `#if` saves and `#else` brings back. -/
namespace BsdAdditions.Indent
open Common Common.Prog

variable (env : Env) (fuel : ℕ)

/-- One round of the main loop, if it meets what is expected of it. -/
def Main.next? (s : Main) (r : Round) : Option Main :=
  match round env fuel s with
  | .ok (r', s') => if r' = r then some s' else none
  | .error _ => none

/-- What a round does to the saved states, and from them to the parser state. -/
def Saves (s s' : Main) : Round → Prop
  | .line .opens =>
    if h : s.ifdefLevel < 5 then
      s'.ifdefLevel = s.ifdefLevel + 1 ∧
        s'.stateStack = Function.update s.stateStack ⟨s.ifdefLevel, h⟩ s'.core.ps
    else s'.ifdefLevel = s.ifdefLevel ∧ s'.stateStack = s.stateStack
  | .line .switches =>
    s'.ifdefLevel = s.ifdefLevel ∧ s'.stateStack = s.stateStack ∧
      ∀ h : s.ifdefLevel - 1 < 5, 0 < s.ifdefLevel → s'.core.ps = s.stateStack ⟨s.ifdefLevel - 1, h⟩
  | .line .closes => s'.ifdefLevel = s.ifdefLevel - 1 ∧ s'.stateStack = s.stateStack
  | _ => s'.ifdefLevel = s.ifdefLevel ∧ s'.stateStack = s.stateStack

theorem ensures_onCore {α : Type} {m : Ind α} {post : α → Main → Prop} {s : Main} :
    Ensures (onCore m) post s ↔ Ensures m (fun a core => post a { s with core }) s.core := by
  constructor
  · intro h a core hm
    refine h a _ ?_
    simp [onCore, hm, bind, Except.bind, pure, Except.pure]
  · intro h a t hm
    cases hc : m s.core with
    | error e => simp [onCore, hc, bind, Except.bind] at hm
    | ok p =>
      obtain ⟨a', core⟩ := p
      simp [onCore, hc, bind, Except.bind, pure, Except.pure] at hm
      obtain ⟨rfl, rfl⟩ := hm
      exact h a' core hc

section Saves
variable {env fuel} {s s' t t' : Main}

theorem Saves.of_eq {r : Round} (h : Saves s s' r) (hlevel : t.ifdefLevel = s.ifdefLevel)
    (hstack : t.stateStack = s.stateStack) (hlevel' : t'.ifdefLevel = s'.ifdefLevel)
    (hstack' : t'.stateStack = s'.stateStack) (hps : t'.core.ps = s'.core.ps) : Saves t t' r := by
  unfold Saves at h ⊢
  simp only [hlevel, hstack, hlevel', hstack', hps]
  exact h

theorem saves_onCore {α : Type} (m : Ind α) (s : Main) : Ensures (onCore m) (fun _ s' =>
    s'.ifdefLevel = s.ifdefLevel ∧ s'.stateStack = s.stateStack) s :=
  ensures_onCore.mpr fun _ _ _ => ⟨rfl, rfl⟩

theorem saves_conditional (lab : List UInt8) (s : Main) :
    Ensures (conditional env lab) (fun _ s' => Saves s s' (.line (Directive.of lab))) s := by
  rw [conditional, ensures_bind, ensures_get]
  cases Directive.of lab with
  | opens =>
    by_cases h : s.ifdefLevel < 5
    · simp [Saves, h]
    · simpa [Saves, h] using saves_onCore _ s
  | switches =>
    dsimp only
    refine ensures_ite (fun hzero => ?_) fun hpos => ?_
    · refine (saves_onCore _ s).mono fun _ s' ⟨hlevel, hstack⟩ => ⟨hlevel, hstack, ?_⟩
      intro _ hlt
      omega
    · by_cases h : s.ifdefLevel - 1 < 5
      · rw [dif_pos h, ensures_set]
        exact ⟨rfl, rfl, fun _ _ => rfl⟩
      · rw [dif_neg h]
        exact ensures_throw _ _
  | closes =>
    dsimp only
    refine ensures_ite (fun hzero => ?_) fun hpos => ?_
    · refine (saves_onCore _ s).mono fun _ s' ⟨hlevel, hstack⟩ => ⟨?_, hstack⟩
      omega
    · rw [ensures_set]
      exact ⟨rfl, rfl⟩
  | other => exact (ensures_pure _ _ _).mpr ⟨rfl, rfl⟩
  | unrecognized => exact saves_onCore _ s

theorem keepsPs_closeCode : Relates (fun s s' : Indenter => s'.ps = s.ps) closeCode := by
  refine Relates.get_bind fun s => ?_
  rw [ensures_bind]
  cases s.code.close? with
  | none => exact ensures_throw _ _
  | some code => simp [orFault]

theorem keepsPs_afterSwitch :
    Relates (fun s s' : Indenter => s'.ps = s.ps) (afterSwitch .preesc) := fun s => by
  rw [afterSwitch, ensures_bind]
  exact (keepsPs_closeCode s).mono fun _ s' hs' => (ensures_pure _ _ _).mpr hs'

theorem keepsPs_blanklinesAround :
    Relates (fun s s' : Indenter => s'.ps = s.ps) (blanklinesAround env) :=
  Relates.modify fun s => by split <;> rfl

/-- What follows a conditional leaves the parser state alone. -/
theorem Saves.after {α : Type} {m : Ind α} (hm : Relates (fun s s' : Indenter => s'.ps = s.ps) m)
    {r : Round} (h : Saves s s' r) : Ensures (onCore m) (fun _ t => Saves s t r) s' :=
  ensures_onCore.mpr ((hm s'.core).mono fun _ _ hps => h.of_eq rfl rfl rfl rfl hps)

theorem saves_directive (s : Main) :
    Ensures (directive env fuel) (fun d s' => Saves s s' (.line d)) s := by
  rw [directive, ensures_bind]
  refine (saves_onCore _ s).mono fun _ s1 ⟨hlevel, hstack⟩ => ?_
  rw [ensures_bind, ensures_get, ensures_bind]
  refine (saves_conditional _ s1).mono fun _ s2 hs2 => ?_
  have hs : Saves s s2 (.line (Directive.of s1.core.lab.text)) :=
    hs2.of_eq hlevel.symm hstack.symm rfl rfl rfl
  rw [ensures_bind]
  refine ensures_ite (fun _ => ?_) fun _ => ?_
  · rw [ensures_pure, ensures_pure]
    exact hs
  · refine (hs.after keepsPs_blanklinesAround).mono fun _ s3 hs3 => ?_
    exact (ensures_pure _ _ _).mpr hs3

/-- The states are saved and brought back by preprocessor lines alone. -/
theorem saves_round (s : Main) : Ensures (round env fuel) (fun r s' => Saves s s' r) s := by
  rw [round, ensures_bind]
  refine (saves_onCore _ s).mono fun typeCode s1 ⟨hlevel1, hstack1⟩ => ?_
  refine ensures_ite (fun _ => ?_) fun _ => ?_
  · rw [ensures_bind]
    refine (saves_onCore _ s1).mono fun _ s2 ⟨hlevel2, hstack2⟩ => (ensures_pure _ _ _).mpr ?_
    exact ⟨hlevel2.trans hlevel1, hstack2.trans hstack1⟩
  rw [ensures_bind]
  refine (saves_onCore _ s1).mono fun _ s2 ⟨hlevel2, hstack2⟩ => ?_
  have hlevel : s2.ifdefLevel = s.ifdefLevel := hlevel2.trans hlevel1
  have hstack : s2.stateStack = s.stateStack := hstack2.trans hstack1
  refine ensures_ite (fun hpre => ?_) fun _ => ?_
  · subst hpre
    rw [ensures_bind]
    refine (saves_directive s2).mono fun d s3 hs3 => ?_
    rw [ensures_bind]
    have hs : Saves s s3 (.line d) := hs3.of_eq hlevel.symm hstack.symm rfl rfl rfl
    exact (hs.after keepsPs_afterSwitch).mono fun _ s4 hs4 => (ensures_pure _ _ _).mpr hs4
  · rw [ensures_bind]
    refine (saves_onCore _ s2).mono fun _ s3 ⟨hlevel3, hstack3⟩ => ?_
    rw [ensures_bind]
    refine (saves_onCore _ s3).mono fun _ s4 ⟨hlevel4, hstack4⟩ => (ensures_pure _ _ _).mpr ?_
    exact ⟨hlevel4.trans (hlevel3.trans hlevel), hstack4.trans (hstack3.trans hstack)⟩

theorem saves_next? {r : Round} (h : s.next? env fuel r = some s') : Saves s s' r := by
  rw [Main.next?] at h
  split at h
  case h_1 r' t hok =>
    split at h
    case isTrue hr =>
      obtain rfl := Option.some.inj h
      exact hr ▸ saves_round s r' t hok
    case isFalse => cases h
  case h_2 => cases h

end Saves

/-- What may stand between an `#if` and an `#else` that belongs to it: tokens and other lines,
branches of the same group, and groups that are closed. -/
inductive Nested : List Round → Prop
  | nil : Nested []
  | token (typeCode : Code) {rs : List Round} (h : Nested rs) : Nested (.token typeCode :: rs)
  | line {d : Directive} (hopens : d ≠ .opens) (hcloses : d ≠ .closes) {rs : List Round}
      (h : Nested rs) : Nested (.line d :: rs)
  | group {body rs : List Round} (hbody : Nested body) (h : Nested rs) :
      Nested (.line .opens :: (body ++ .line .closes :: rs))

/-- There is room for the state that an `#if` saves. -/
def HasRoom (s : Main) (r : Round) : Prop := r = .line .opens → s.ifdefLevel < 5

instance (s : Main) (r : Round) : Decidable (HasRoom s r) := inferInstanceAs (Decidable (_ → _))

/-- The saved states that belong to open groups. -/
def SameOpen (s s' : Main) : Prop :=
  s'.ifdefLevel = s.ifdefLevel ∧ ∀ i : Fin 5, i < s.ifdefLevel → s'.stateStack i = s.stateStack i

theorem SameOpen.trans {s s' s'' : Main} (h : SameOpen s s') (h' : SameOpen s' s'') :
    SameOpen s s'' := by
  refine ⟨h'.1.trans h.1, fun i hi => ?_⟩
  rw [h'.2 i (h.1 ▸ hi), h.2 i hi]

theorem Saves.sameOpen {s s' : Main} {r : Round} (h : Saves s s' r) (hopens : r ≠ .line .opens)
    (hcloses : r ≠ .line .closes) : SameOpen s s' := by
  have hsame : s'.ifdefLevel = s.ifdefLevel ∧ s'.stateStack = s.stateStack := by
    match r, h with
    | .finished, h => exact h
    | .token _, h => exact h
    | .line .opens, _ => exact absurd rfl hopens
    | .line .switches, h => exact ⟨h.1, h.2.1⟩
    | .line .closes, _ => exact absurd rfl hcloses
    | .line .other, h => exact h
    | .line .unrecognized, h => exact h
  exact ⟨hsame.1, fun i _ => by rw [hsame.2]⟩

/-- What lies between leaves the saved states of the open groups as they are. -/
theorem Nested.sameOpen {env : Env} {fuel : ℕ} {rs : List Round} (h : Nested rs) {s t : Main}
    (hrun : Common.run (Main.next? env fuel) s rs = some t)
    (hroom : StepsMeet (Main.next? env fuel) HasRoom s rs) : SameOpen s t := by
  induction h generalizing s t with
  | nil =>
    obtain rfl := Option.some.inj hrun
    exact ⟨rfl, fun _ _ => rfl⟩
  | token typeCode _ ih =>
    obtain ⟨s1, h1, hrest⟩ := run_cons_eq_some.mp hrun
    exact ((saves_next? h1).sameOpen (by simp) (by simp)).trans (ih hrest (hroom.2 s1 h1))
  | line hopens hcloses _ ih =>
    obtain ⟨s1, h1, hrest⟩ := run_cons_eq_some.mp hrun
    have hsame := (saves_next? h1).sameOpen (by simp [hopens]) (by simp [hcloses])
    exact hsame.trans (ih hrest (hroom.2 s1 h1))
  | group _ _ ihbody ih =>
    obtain ⟨s1, h1, hrest⟩ := run_cons_eq_some.mp hrun
    obtain ⟨s2, hbody, hrest⟩ := run_append.mp hrest
    obtain ⟨s3, h3, hrest⟩ := run_cons_eq_some.mp hrest
    obtain ⟨hroom1, hroom2⟩ := (hroom.2 s1 h1).of_append hbody
    -- the `#if` takes the next place, and the `#endif` gives it back
    have hopen := saves_next? h1
    have hlt : s.ifdefLevel < 5 := hroom.1 rfl
    simp only [Saves, hlt, dif_pos] at hopen
    obtain ⟨hlevel2, hstack2⟩ := ihbody hbody hroom1
    obtain ⟨hlevel3, hstack3⟩ := saves_next? h3
    have hgroup : SameOpen s s3 := by
      refine ⟨by omega, fun i hi => ?_⟩
      rw [hstack3, hstack2 i (by omega), hopen.2, Function.update_of_ne]
      exact fun heq => absurd (congrArg Fin.val heq) (by simp only; omega)
    exact hgroup.trans (ih hrest (hroom2.2 s3 h3))

/-- An `#else` or `#elif` brings back the state that the `#if` of its group saved, if every `#if`
between them finds room for its own. -/
theorem else_restores_saved_state (env : Env) (fuel : ℕ) (s t : Main) (between : List Round)
    (hbetween : Nested between) (hsaved : s.ifdefLevel < 5)
    (hroom : StepsMeet (Main.next? env fuel) HasRoom s (.line .opens :: between))
    (hrun : Common.run (Main.next? env fuel) s
      (.line .opens :: (between ++ [.line .switches])) = some t) :
    ∃ s1, s.next? env fuel (.line .opens) = some s1 ∧
      s1.stateStack ⟨s.ifdefLevel, hsaved⟩ = s1.core.ps ∧ t.core.ps = s1.core.ps := by
  obtain ⟨s1, h1, hrest⟩ := run_cons_eq_some.mp hrun
  obtain ⟨s2, hmid, hrest⟩ := run_append.mp hrest
  obtain ⟨s3, h3, hlast⟩ := run_cons_eq_some.mp hrest
  obtain rfl := Option.some.inj hlast
  have hopen := saves_next? h1
  simp only [Saves, hsaved, dif_pos] at hopen
  have hmem : s1.stateStack ⟨s.ifdefLevel, hsaved⟩ = s1.core.ps := by
    rw [hopen.2, Function.update_self]
  refine ⟨s1, h1, hmem, ?_⟩
  obtain ⟨hlevel, hstack⟩ := hbetween.sameOpen hmid (hroom.2 s1 h1)
  obtain ⟨-, -, hps⟩ := saves_next? h3
  have hlevel2 : s2.ifdefLevel = s.ifdefLevel + 1 := hlevel.trans hopen.1
  have hindex : (⟨s2.ifdefLevel - 1, by omega⟩ : Fin 5) = ⟨s.ifdefLevel, hsaved⟩ :=
    Fin.ext (by simp only; omega)
  rw [hps (by omega) (by omega), hindex, hstack _ (by simp only; omega), hmem]

theorem else_restores_after_group :
    ∃ s t s1, Main.started .plain 60 (bytes "#if A\nx;\n#if B\n#endif\n#else\n") = some s ∧
      Common.run (Main.next? .plain 60) s
        [.line .opens, .token .newline, .token .ident, .token .semicolon, .token .newline,
          .line .opens, .token .newline, .line .closes, .token .newline, .line .switches] = some t ∧
      s.next? .plain 60 (.line .opens) = some s1 ∧ t.core.ps = s1.core.ps := by
  have hstart : (Main.started .plain 60 (bytes "#if A\nx;\n#if B\n#endif\n#else\n")).any (fun s =>
      s.ifdefLevel < 5 ∧ StepsMeet (Main.next? .plain 60) HasRoom s
        [.line .opens, .token .newline, .token .ident, .token .semicolon, .token .newline,
          .line .opens, .token .newline, .line .closes, .token .newline] ∧
      (Common.run (Main.next? .plain 60) s
        [.line .opens, .token .newline, .token .ident, .token .semicolon, .token .newline,
          .line .opens, .token .newline, .line .closes, .token .newline, .line .switches]).isSome) = true := by
    decide +kernel
  obtain ⟨s, hs, hrest⟩ := (Option.any_eq_true _ _).mp hstart
  obtain ⟨hsaved, hroom, hsome⟩ := of_decide_eq_true hrest
  obtain ⟨t, ht⟩ := Option.isSome_iff_exists.mp hsome
  have hnested : Nested [.token .newline, .token .ident, .token .semicolon, .token .newline,
      .line .opens, .token .newline, .line .closes, .token .newline] :=
    .token _ (.token _ (.token _ (.token _ (@Nested.group [.token .newline] _
      (.token _ .nil) (.token _ .nil)))))
  obtain ⟨s1, h1, -, hps⟩ := else_restores_saved_state .plain 60 s t _ hnested hsaved hroom ht
  exact ⟨s, t, s1, hs, ht, h1, hps⟩

/-- Four groups are open, then a block, then a fifth group and in it a sixth that finds no room:
the `#else` of the fifth brings back the state from before the block. -/
theorem else_restores_outer_state :
    Nested [.token .newline, .line .opens, .token .newline, .line .closes, .token .newline] ∧
    ((Main.started .plain 60
      (bytes "#if A\n#if A\n#if A\n#if A\n\x7b\n#if A\n#if A\n#endif\n#else\n")).bind fun s =>
        Common.run (Main.next? .plain 60) s
          [.line .opens, .token .newline, .line .opens, .token .newline, .line .opens,
            .token .newline, .line .opens, .token .newline, .token .lbrace, .token .newline]).any
      (fun s => s.ifdefLevel = 4 ∧
        ((s.next? .plain 60 (.line .opens)).map fun s1 => s1.core.ps.tos) = some 2 ∧
        ((Common.run (Main.next? .plain 60) s
          [.line .opens, .token .newline, .line .opens, .token .newline, .line .closes,
            .token .newline, .line .switches]).map fun t => t.core.ps.tos) = some 0) = true := by
  refine ⟨.token _ (@Nested.group [.token .newline] _ (.token _ .nil) (.token _ .nil)), ?_⟩
  decide +kernel

end BsdAdditions.Indent
