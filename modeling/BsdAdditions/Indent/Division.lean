import BsdAdditions.Indent.Args
import BsdAdditions.Indent.Tables

/-! Divisions by the sizes that the options give. -/
namespace BsdAdditions.Indent
open Common Common.Prog

variable {env : Env} {fuel : ℕ} {input : List UInt8}

/-- The run with the options as `main` has completed them. -/
def Env.settled (env : Env) : Env := { env with opt := env.opt.settled }

theorem indent_eq_error {e : Halt} :
    indent env fuel input = .error e ↔ main env.settled fuel (.initial env.settled input) = .error e := by
  change (main env.settled fuel (.initial env.settled input) >>= fun r => pure r.2.core.output) = _ ↔ _
  cases main env.settled fuel (.initial env.settled input) with
  | error e' =>
    change Except.error e' = Except.error e ↔ _
    simp
  | ok r => exact ⟨nofun, nofun⟩

/-- With these options, no run divides by zero. -/
def NeverDivides (st : Settings) : Prop :=
  ∀ env fuel input, indent (st.env env) fuel input ≠ .error .divide

theorem neverDivides_of_sizes {st : Settings} (htab : st.opt.tabsize ≠ 0) (hind : st.opt.indSize ≠ 0) :
    NeverDivides st := by
  intro env fuel input h
  rw [indent_eq_error] at h
  have hmain := upholds_iff.mp (safe_main (st.env env).settled fuel) _
    (bounded_initial (st.env env).settled input)
  rw [h] at hmain
  rcases hmain.2 rfl with hzero | hzero
  · exact htab hzero
  · exact hind hzero

/-- What happens before the column of a first line is computed does not depend on the options. -/
theorem exists_parsed (env : Env) (hline : input = [9, 59, 10] ∨ input = [59, 10]) :
    ∃ s s', fillBuffer env 3 (.initial env input) = .ok ((), s) ∧ parse env .semicolon s = .ok ((), s') ∧
      s'.src.rest = input := by
  rcases hline with rfl | rfl
  · exact ⟨_, _, rfl, rfl, rfl⟩
  · exact ⟨_, _, rfl, rfl, rfl⟩

theorem start_eq {s s' : Indenter} (hfill : fillBuffer env fuel (.initial env input) = .ok ((), s))
    (hparse : parse env .semicolon s = .ok ((), s')) (hrest : s'.src.rest = input) :
    start env fuel (.initial env input) = (do
      let col ← orDivide (firstColumn env.opt input)
      onlyIf (col > env.opt.indSize) do
        divisor env.opt.indSize
        let level := col.tdiv env.opt.indSize
        modifyPs fun ps => { ps with indLevel := level, iLFollow := level }) s' := by
  unfold start
  rw [bind_of_ok hfill, bind_of_ok hparse, bind_of_ok rfl, hrest]

/-- A line that starts with a tab divides by the size of tabs, and every line by that of indentations. -/
theorem start_divides (h : env.opt.tabsize = 0 ∨ env.opt.indSize = 0) :
    ∃ input, start env 3 (.initial env input) = .error .divide := by
  by_cases htab : env.opt.tabsize = 0
  · refine ⟨[9, 59, 10], ?_⟩
    obtain ⟨s, s', hfill, hparse, hrest⟩ := exists_parsed env (Or.inl rfl)
    rw [start_eq hfill hparse hrest]
    have hcol : firstColumn env.opt [9, 59, 10] = none := by
      simp [firstColumn, isBlank, countSpaces, tabStop, htab]
    rw [hcol]
    rfl
  · refine ⟨[59, 10], ?_⟩
    have hind := h.resolve_left htab
    obtain ⟨s, s', hfill, hparse, hrest⟩ := exists_parsed env (Or.inr rfl)
    rw [start_eq hfill hparse hrest]
    have hcol : firstColumn env.opt [59, 10] = some 1 := rfl
    rw [hcol, hind]
    rfl

theorem main_of_start_error {e : Halt} (h : start env fuel (.initial env input) = .error e) :
    main env fuel (.initial env input) = .error e := by
  have hcore : onCore (start env fuel) (.initial env input) = .error e := by
    change (start env fuel (.initial env input) >>= _) = _
    rw [h]
    rfl
  unfold main
  change (onCore (start env fuel) (.initial env input) >>= _) = _
  rw [hcore]
  rfl

theorem neverDivides_iff {st : Settings} :
    NeverDivides st ↔ st.opt.tabsize ≠ 0 ∧ st.opt.indSize ≠ 0 := by
  constructor
  · intro h
    by_contra hsizes
    have hzero : st.opt.tabsize = 0 ∨ st.opt.indSize = 0 := by
      rwa [← not_not (a := st.opt.tabsize = 0), ← not_not (a := st.opt.indSize = 0), ← not_and_or]
    obtain ⟨input, hstart⟩ : ∃ input, start (st.env .plain).settled 3
        (.initial (st.env .plain).settled input) = .error .divide := start_divides hzero
    apply h .plain 3 input
    rw [indent_eq_error]
    exact main_of_start_error hstart
  · intro h
    exact neverDivides_of_sizes h.1 h.2

/-- No files, and no digits behind a decimal point. -/
def Library.bare : Library := ⟨fun _ => 0, fun _ => none, []⟩

end BsdAdditions.Indent
