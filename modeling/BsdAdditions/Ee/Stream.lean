import BsdAdditions.Ee.LoadSave

/-! Saving to a stream that may fail at any byte. -/
namespace BsdAdditions.Ee
open Common Common.Prog

/-- How the host takes an output stream: whether each `putc`, counted from the first, and the
`fclose` succeed. -/
structure Stream where
  accepts : ℕ → Bool
  closes : Bool

/-- What comes of a name that is to be written to. -/
inductive Destination where
  | declined
  | cannotCreate
  | opened (stream : Stream)

/-- The file as far as it has been written, and the number of bytes that were sent to it. -/
structure Sink where
  sent : ℕ
  file : List UInt8

/-- Nobody looks at what `putc` returns. -/
def Stream.putc (st : Stream) (k : Sink) (c : UInt8) : Sink where
  sent := k.sent + 1
  file := if st.accepts k.sent then k.file ++ [c] else k.file

/-- The loop over the lines. -/
def putLines (st : Stream) : ℕ → Option ℕ → Sink → Ed Sink
  | _, none, k => pure k
  | 0, some _, _ => outOfFuel
  | fuel + 1, some i, k => do
    let n ← node i
    let bs ← orFault (n.readMany n.start (n.lineLength - 1))
    putLines st fuel n.next (st.putc (bs.foldl st.putc k) 10)

/-- What `write_file` returns, and the file and the result of `fclose`. -/
structure Written where
  returned : Bool
  file : List UInt8
  closed : Bool

/-- `write_file`. -/
def writeTo (fuel : ℕ) : Destination → Ed Written
  | .declined | .cannotCreate => pure ⟨false, [], false⟩
  | .opened st => do
    let k ← putLines st fuel (some (← get).firstLine) ⟨0, []⟩
    return ⟨true, k.file, st.closes⟩

/-- The save of `file_op`; without a name nothing is written. -/
def saveTo (fuel : ℕ) (named : Bool) (dest : Destination) : Ed Unit := do
  if named then
    let w ← writeTo fuel dest
    if w.returned then modify fun s => { s with textChanges := false }

def finish (fuel : ℕ) (named yes : Bool) (dest : Destination) : Ed (Option Quit) := do
  if named then
    let w ← writeTo fuel dest
    if w.returned then
      modify fun s => { s with textChanges := false }
      let q ← quit false yes
      return some q
    else return none
  else return none

/-! ### What the file holds -/

/-- The complete text is in the file, and the file is closed. -/
def Written.Holds (w : Written) (text : List UInt8) : Prop := w.file = text ∧ w.closed = true

/-- No failure of the stream goes unnoticed: there is none. -/
def Destination.Reliable (n : ℕ) : Destination → Prop
  | .opened st => (∀ i < n, st.accepts i = true) ∧ st.closes = true
  | _ => True

section Stream
variable {st : Stream} {s s' : Editor}

/-- The bytes that the stream takes, from number `n` on. -/
def Stream.send (st : Stream) : ℕ → List UInt8 → List UInt8
  | _, [] => []
  | n, c :: cs => if st.accepts n then c :: st.send (n + 1) cs else st.send (n + 1) cs

theorem Stream.foldl_putc (cs : List UInt8) (k : Sink) :
    cs.foldl st.putc k = ⟨k.sent + cs.length, k.file ++ st.send k.sent cs⟩ := by
  induction cs generalizing k with
  | nil => simp [Stream.send]
  | cons c cs ih =>
    rw [List.foldl_cons, ih, Stream.putc, Stream.send]
    simp only [List.length_cons, Sink.mk.injEq]
    constructor
    · omega
    · split <;> simp

theorem Stream.length_send_le (n : ℕ) (cs : List UInt8) : (st.send n cs).length ≤ cs.length := by
  induction cs generalizing n with
  | nil => exact Nat.le_refl 0
  | cons c cs ih =>
    have := ih (n + 1)
    rw [Stream.send]
    split <;> simp only [List.length_cons] <;> omega

/-- The whole text arrives just when every byte is taken. -/
theorem Stream.send_eq_iff (n : ℕ) (cs : List UInt8) :
    st.send n cs = cs ↔ ∀ i < cs.length, st.accepts (n + i) = true := by
  induction cs generalizing n with
  | nil => simp [Stream.send]
  | cons c cs ih =>
    rw [Stream.send]
    cases hn : st.accepts n with
    | true =>
      simp only [if_true, List.cons.injEq, true_and, ih (n + 1)]
      constructor
      · intro h i hi
        cases i with
        | zero => exact hn
        | succ i =>
          have := h i (by simpa using hi)
          rwa [Nat.add_right_comm, Nat.add_assoc] at this
      · intro h i hi
        have := h (i + 1) (by simpa using hi)
        rwa [Nat.add_right_comm, Nat.add_assoc]
    | false =>
      constructor
      · intro h
        have hlen := congrArg List.length h
        have hle := @Stream.length_send_le st (n + 1) cs
        simp only [Bool.false_eq_true, if_false, List.length_cons] at hlen
        omega
      · intro h
        have := h 0 (by simp)
        rw [Nat.add_zero, hn] at this
        cases this

/-- The bytes of a text: its lines, each with a newline. -/
def bytesOfLines (heap : ℕ → Option Node) (ids : List ℕ) : List UInt8 :=
  (ids.map (lineAt heap)).flatMap (· ++ [10])

theorem bytesOfLines_cons {heap : ℕ → Option Node} {i : ℕ} {is : List ℕ} :
    bytesOfLines heap (i :: is) = lineAt heap i ++ [10] ++ bytesOfLines heap is := by
  rw [bytesOfLines, List.map_cons, List.flatMap_cons]
  rfl

/-- The loop sends the lines, each with a newline. -/
theorem Chain.putLines_eq {t : Prop} {p : Option ℕ} {ids : List ℕ} (h : Chain s.heap p ids)
    (hok : ∀ i ∈ ids, ∀ m, s.heap i = some m → NodeOk t m) {fuel : ℕ} (hfuel : ids.length ≤ fuel)
    (k : Sink) : putLines st fuel ids.head? k s = .ok ((bytesOfLines s.heap ids).foldl st.putc k, s) := by
  induction ids generalizing p fuel k with
  | nil => cases fuel <;> rfl
  | cons i is ih =>
    obtain ⟨m, hm, -, hnext, hc⟩ := h
    obtain ⟨fuel, rfl⟩ : ∃ f, fuel = f + 1 := ⟨fuel - 1, by rw [List.length_cons] at hfuel; omega⟩
    have hnode : node i s = .ok (m, s) := by
      rw [node, bind_of_ok rfl, hm]
      rfl
    have hrest := ih hc (fun j hj => hok j (List.mem_cons_of_mem i hj)) (Nat.le_of_succ_le_succ hfuel)
    rw [List.head?_cons, putLines, bind_of_ok hnode, (hok i List.mem_cons_self m hm).readMany_content,
      hnext, bind_of_ok (t := s) rfl, hrest, bytesOfLines_cons, lineAt, hm, List.foldl_append,
      List.foldl_append]
    rfl

/-- `write_file` on a text that is linked. -/
theorem Lines.writeTo_eq {t : Prop} {ids : List ℕ} (h : Lines t s.heap ids)
    (hfirst : ids.head? = some s.firstLine) {fuel : ℕ} (hfuel : ids.length ≤ fuel) :
    writeTo fuel (.opened st) s = .ok (⟨true, st.send 0 (bytesOfLines s.heap ids), st.closes⟩, s) := by
  have hput : putLines st fuel (some s.firstLine) ⟨0, []⟩ s = _ :=
    hfirst ▸ h.chain.putLines_eq h.ok hfuel ⟨0, []⟩
  rw [writeTo, bind_of_ok rfl, bind_of_ok hput, Stream.foldl_putc]
  rfl

end Stream

/-- A save that failed is never taken for one that succeeded, by `write_file`, by the save of
`file_op` or by `finish`, just when the stream does not fail. -/
theorem failed_save_noticed_iff {t : Prop} (s : Editor) (ids : List ℕ) (h : Lines t s.heap ids)
    (hfirst : ids.head? = some s.firstLine) (fuel : ℕ) (hfuel : ids.length ≤ fuel) (named yes : Bool)
    (dest : Destination) :
    ∃ w s₁ q s₂, writeTo fuel dest s = .ok (w, s) ∧ saveTo fuel named dest s = .ok ((), s₁) ∧
      finish fuel named yes dest s = .ok (q, s₂) ∧
      (((w.returned = true → w.Holds (bytesOfLines s.heap ids)) ∧
        (s.textChanges = true → s₁.textChanges = false → w.Holds (bytesOfLines s.heap ids)) ∧
        (q.any (·.discards) = true → w.Holds (bytesOfLines s.heap ids))) ↔
      dest.Reliable (bytesOfLines s.heap ids).length) := by
  cases dest with
  | declined | cannotCreate =>
    -- nothing is reported as done
    refine ⟨⟨false, [], false⟩, s, none, s, rfl, by cases named <;> rfl, by cases named <;> rfl, ?_⟩
    refine ⟨fun _ => trivial, fun _ => ⟨nofun, fun hc hn => ?_, nofun⟩⟩
    rw [hc] at hn
    cases hn
  | opened st =>
    have hwrite : writeTo fuel (.opened st) s = _ := h.writeTo_eq hfirst hfuel
    have hholds : (⟨true, st.send 0 (bytesOfLines s.heap ids), st.closes⟩ : Written).Holds
        (bytesOfLines s.heap ids) ↔ (Destination.opened st).Reliable (bytesOfLines s.heap ids).length := by
      rw [Written.Holds, Destination.Reliable, Stream.send_eq_iff]
      simp only [Nat.zero_add]
    obtain ⟨s₁, hsave⟩ : ∃ s₁, saveTo fuel named (.opened st) s = .ok ((), s₁) := by
      unfold saveTo
      cases named with
      | false => exact ⟨s, rfl⟩
      | true =>
        rw [if_pos rfl, bind_of_ok hwrite]
        exact ⟨_, rfl⟩
    obtain ⟨q, s₂, hfinish⟩ : ∃ q s₂, finish fuel named yes (.opened st) s = .ok (q, s₂) := by
      unfold finish
      cases named with
      | false => exact ⟨none, s, rfl⟩
      | true =>
        rw [if_pos rfl, bind_of_ok hwrite]
        exact ⟨_, _, rfl⟩
    refine ⟨_, s₁, q, s₂, hwrite, hsave, hfinish, ?_⟩
    rw [← hholds]
    exact ⟨fun hall => hall.1 rfl, fun hw => ⟨fun _ => hw, fun _ _ => hw, fun _ => hw⟩⟩

/-- The empty text that the editor starts with, on a stream that takes everything. -/
theorem initial_save_noticed :
    ∃ w s₁ q s₂, writeTo 1 (.opened ⟨fun _ => true, true⟩) (Editor.initial (cLocale 0) 23 80) =
        .ok (w, Editor.initial (cLocale 0) 23 80) ∧
      saveTo 1 true (.opened ⟨fun _ => true, true⟩) (Editor.initial (cLocale 0) 23 80) = .ok ((), s₁) ∧
      finish 1 true false (.opened ⟨fun _ => true, true⟩) (Editor.initial (cLocale 0) 23 80) = .ok (q, s₂) ∧
      (w.returned = true → w.Holds [10]) := by
  obtain ⟨n, hinv⟩ := inv_initial (t := False) (h := cLocale 0) False.elim 23 80
  obtain ⟨w, s₁, q, s₂, hw, hs₁, hq, hiff⟩ := failed_save_noticed_iff _ [0] hinv.lines hinv.first 1
    (Nat.le_refl 1) true false (.opened ⟨fun _ => true, true⟩)
  exact ⟨w, s₁, q, s₂, hw, hs₁, hq, (hiff.mpr ⟨fun _ _ => rfl, rfl⟩).1⟩

/-- One character has been typed and the disk is full after one byte: the newline is lost and the
file cannot be closed, but `write_file` returns `TRUE`, and `finish` leaves the editor with the
text marked as saved. -/
theorem full_disk_unnoticed :
    (Common.run next? (Editor.initial (cLocale 0) 23 80) [(9, .insert 97)]).any (fun s =>
      s.textChanges &&
      (match writeTo 1 (.opened ⟨(· < 1), false⟩) s with
        | .ok (w, _) => w.returned && w.file = [97] && !w.closed
        | .error _ => false) &&
      (match finish 1 true false (.opened ⟨(· < 1), false⟩) s with
        | .ok (some q, s₂) => q.discards && !s₂.textChanges
        | _ => false)) = true := by
  decide +kernel

end BsdAdditions.Ee
