import BsdAdditions.Ee.LoadSave

/-! What a command has written comes in through a pipe, cut as the time of its writing has it. -/
namespace BsdAdditions.Ee
open Common Common.Prog

/-- The text after bytes have come in at an empty line. -/
def received (z : Zipper) (c : List UInt8) : List (List UInt8) :=
  if c = [] then z.text else z.before ++ lines 10 c ++ z.after

/-- Behind the bytes of a read that another one follows there is no newline of an earlier one. -/
def CutsUnseen : List (List UInt8) → InString → Prop
  | chunk :: next :: chunks, b =>
    (b.fill chunk).bytes.getD chunk.length 0 ≠ 10 ∧ CutsUnseen (next :: chunks) (b.fill chunk)
  | _, _ => True

/-- The reads bring at least one byte and at most 512. -/
def IsReads (chunks : List (List UInt8)) : Prop := ∀ c ∈ chunks, c ≠ [] ∧ c.length ≤ 512

section Chunks
variable {chunks : List (List UInt8)} {b : InString} {append : Bool} {z : List (List UInt8) × List UInt8}

theorem feedChunks_cons {chunk : List UInt8} (h : chunk ≠ [] ∧ chunk.length ≤ 512) :
    feedChunks (chunk :: chunks) b append z =
      feedChunks chunks (b.fill chunk) (decide ((b.fill chunk).bytes.getD chunk.length 0 ≠ 10))
        (feed 10 (opened append z) chunk) := by
  rw [feedChunks, if_neg h.1, List.take_of_length_le h.2]

/-- Where no newline is seen, the cuts make no difference. -/
theorem feedChunks_of_cutsUnseen (hreads : IsReads chunks) (h : CutsUnseen chunks b) (hne : chunks ≠ []) :
    feedChunks chunks b append z = feed 10 (opened append z) chunks.flatten := by
  induction chunks generalizing b append z with
  | nil => exact absurd rfl hne
  | cons chunk chunks ih =>
    rw [feedChunks_cons (hreads chunk List.mem_cons_self)]
    cases chunks with
    | nil => simp [feedChunks]
    | cons next chunks =>
      obtain ⟨hcut, hrest⟩ := h
      have hreads' : IsReads (next :: chunks) := fun c hc => hreads c (List.mem_cons_of_mem _ hc)
      have hflatten : (chunk :: next :: chunks).flatten = chunk ++ (next :: chunks).flatten := List.flatten_cons
      rw [ih hreads' hrest (List.cons_ne_nil _ _), decide_eq_true hcut, hflatten, feed_append]
      rfl

/-- Every cut at which a newline is seen ends a line. -/
theorem length_feedChunks (hreads : IsReads chunks) (hne : chunks ≠ []) :
    (opened append z).1.length + chunks.flatten.count 10 ≤ (feedChunks chunks b append z).1.length ∧
      (¬ CutsUnseen chunks b →
        (opened append z).1.length + chunks.flatten.count 10 < (feedChunks chunks b append z).1.length) := by
  induction chunks generalizing b append z with
  | nil => exact absurd rfl hne
  | cons chunk chunks ih =>
    rw [feedChunks_cons (hreads chunk List.mem_cons_self)]
    cases chunks with
    | nil =>
      constructor
      · simp [feedChunks, length_feed]
      · intro h
        exact absurd trivial h
    | cons next chunks =>
      have hreads' : IsReads (next :: chunks) := fun c hc => hreads c (List.mem_cons_of_mem _ hc)
      have hflatten : (chunk :: next :: chunks).flatten = chunk ++ (next :: chunks).flatten := List.flatten_cons
      have hfed := length_feed 10 (opened append z) chunk
      rw [hflatten, List.count_append]
      by_cases hcut : (b.fill chunk).bytes.getD chunk.length 0 = 10
      · -- the next read starts a line of its own
        rw [decide_eq_false (not_not.mpr hcut)]
        obtain ⟨hle, -⟩ := @ih (b.fill chunk) false (feed 10 (opened append z) chunk) hreads'
          (List.cons_ne_nil _ _)
        have hopened : (opened false (feed 10 (opened append z) chunk)).1.length =
            (feed 10 (opened append z) chunk).1.length + 1 := by simp [opened]
        constructor
        · omega
        · intro _
          omega
      · rw [decide_eq_true hcut]
        obtain ⟨hle, hlt⟩ := @ih (b.fill chunk) true (feed 10 (opened append z) chunk) hreads'
          (List.cons_ne_nil _ _)
        have hopened : opened true (feed 10 (opened append z) chunk) = feed 10 (opened append z) chunk := rfl
        rw [hopened] at hle hlt
        constructor
        · omega
        · intro h
          have := hlt fun hrest => h ⟨hcut, hrest⟩
          omega

/-- The last line is empty if and only if the last byte is a newline. -/
theorem feedChunks_snd_eq_nil_iff (hreads : IsReads chunks) (hne : chunks ≠ []) :
    (feedChunks chunks b append z).2 = [] ↔ chunks.flatten.getLast? = some 10 := by
  induction chunks generalizing b append z with
  | nil => exact absurd rfl hne
  | cons chunk chunks ih =>
    have hchunk := hreads chunk List.mem_cons_self
    rw [feedChunks_cons hchunk]
    cases chunks with
    | nil =>
      rw [feedChunks, feed_snd_eq_nil_iff_getLast? 10 _ _ hchunk.1]
      simp
    | cons next chunks =>
      have hreads' : IsReads (next :: chunks) := fun c hc => hreads c (List.mem_cons_of_mem _ hc)
      have hnext : (next :: chunks).flatten ≠ [] := by
        simp [(hreads' next List.mem_cons_self).1]
      have hflatten : (chunk :: next :: chunks).flatten = chunk ++ (next :: chunks).flatten := List.flatten_cons
      rw [ih hreads' (List.cons_ne_nil _ _), hflatten, List.getLast?_append,
        List.getLast?_eq_some_getLast hnext, Option.some_or]

/-- The bytes come in as lines if and only if no newline is seen behind a cut. -/
theorem spliced_eq_received_iff (hreads : IsReads chunks) (bs as : List (List UInt8)) :
    spliced chunks b ⟨bs, [], [], as⟩ = received ⟨bs, [], [], as⟩ chunks.flatten ↔ CutsUnseen chunks b := by
  cases chunks with
  | nil => exact iff_of_true (by simp [spliced, received, feedChunks, canRead, Zipper.text]) trivial
  | cons chunk chunks =>
    have hchunk := hreads chunk List.mem_cons_self
    have hne : (chunk :: chunks).flatten ≠ [] := by simp [hchunk.1]
    have hread : canRead (chunk :: chunks) = true := by simp [canRead, hchunk.1]
    have hspliced : spliced (chunk :: chunks) b ⟨bs, [], [], as⟩ =
        (if (feedChunks (chunk :: chunks) b true (bs, [])).2 = [] then
            (feedChunks (chunk :: chunks) b true (bs, [])).1
          else (feedChunks (chunk :: chunks) b true (bs, [])).1 ++
            [(feedChunks (chunk :: chunks) b true (bs, [])).2]) ++ as := by
      simp [spliced, hread]
    have hreceived : received ⟨bs, [], [], as⟩ (chunk :: chunks).flatten =
        bs ++ lines 10 (chunk :: chunks).flatten ++ as := if_neg hne
    rw [hspliced, hreceived, List.append_left_inj, ← ite_feed_eq_append_lines]
    constructor
    · intro heq
      by_cases h : CutsUnseen (chunk :: chunks) b
      · exact h
      · -- there would be more lines than newlines make
        have hlt := (@length_feedChunks _ b true (bs, []) hreads (List.cons_ne_nil _ _)).2 h
        have hlen := congrArg List.length heq
        have hlast := @feedChunks_snd_eq_nil_iff _ b true (bs, []) hreads (List.cons_ne_nil _ _)
        rw [← feed_snd_eq_nil_iff_getLast? 10 (bs, []) _ hne] at hlast
        rw [show opened true (bs, ([] : List UInt8)) = (bs, []) from rfl, ← length_feed 10 (bs, [])] at hlt
        by_cases hnil : (feed 10 (bs, []) (chunk :: chunks).flatten).2 = []
        · rw [if_pos hnil, if_pos (hlast.mpr hnil)] at hlen
          omega
        · rw [if_neg hnil, if_neg (hnil ∘ hlast.mp), List.length_append, List.length_append] at hlen
          simp only [List.length_singleton] at hlen
          omega
    · intro h
      rw [feedChunks_of_cutsUnseen hreads h (List.cons_ne_nil _ _)]
      rfl

end Chunks

/-- However a pipe is cut, at an empty line `get_file` returns with the lines of what has come through it
if and only if behind the bytes of each read but the last there is no newline of an earlier one. -/
theorem pipe_lines_iff {t : Prop} {s : Editor} {bs as : List (List UInt8)} {xs ys : List ℕ} {n : Node}
    (h : Shows t s ⟨bs, [], [], as⟩ xs ys n) (chunks : List (List UInt8)) (hreads : IsReads chunks) :
    ∃ s', getFile chunks s = .ok ((), s') ∧
      (s'.text = received ⟨bs, [], [], as⟩ chunks.flatten ↔ CutsUnseen chunks s.inString) := by
  obtain ⟨s', hget, hreceived⟩ := h.exists_getFile chunks
  refine ⟨s', hget, ?_⟩
  rw [hreceived.text]
  exact spliced_eq_received_iff hreads bs as

theorem pipe_lines_iff_two_reads :
    ∃ s', getFile [[97], [98, 10]] (Editor.initial (cLocale 0) 23 80) = .ok ((), s') ∧
      (s'.text = received ⟨[], [], [], []⟩ [97, 98, 10] ↔ CutsUnseen [[97], [98, 10]] .zero) := by
  obtain ⟨n, hshow⟩ := shows_initial (cLocale 0) 23 80
  exact pipe_lines_iff hshow [[97], [98, 10]] (by simp [IsReads])

/-- The newline of the first read is still behind the one byte of the second, so that the third starts a
line of its own. -/
theorem pipe_line_broken :
    ((getFile [[97, 10], [98], [99]] (Editor.initial (cLocale 0) 23 80)).toOption.map fun p => p.2.text) =
      some [[97], [98], [99]] ∧
    received ⟨[], [], [], []⟩ [97, 10, 98, 99] = [[97], [98, 99]] := by
  decide +kernel

end BsdAdditions.Ee
