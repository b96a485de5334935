import BsdAdditions.Common.Lines
import BsdAdditions.Ee.DeleteSound

/-! Reading a file into the buffer. While it is read only the list of lines is kept up to date:
`position` still says where the cursor was. -/
namespace BsdAdditions.Ee
open Common Common.Prog

/-- What a new line has no part in. -/
def Editor.idle (s : Editor) : Editor :=
  { s with heap := fun _ => none, fresh := 0, currLine := 0, point := ⟨0, 0⟩ }

def Fills (s s' : Editor) : Prop := s.idle = s'.idle

section Fills
variable {s s' : Editor} (h : Fills s s')
include h

theorem Fills.firstLine : s'.firstLine = s.firstLine := (congrArg Editor.firstLine h).symm

theorem Fills.tmpLine : s'.tmpLine = s.tmpLine := (congrArg Editor.tmpLine h).symm

theorem Fills.position : s'.position = s.position := (congrArg Editor.position h).symm

theorem Fills.eeChinese : s'.eeChinese = s.eeChinese := (congrArg Editor.eeChinese h).symm

theorem Fills.inString : s'.inString = s.inString := (congrArg Editor.inString h).symm

theorem Fills.withInString (b : InString) :
    Fills { s with inString := b } { s' with inString := b } := by
  have heq : s.idle = s'.idle := h
  exact congrArg (fun e : Editor => ({ e with inString := b } : Editor)) heq

end Fills

theorem Allocates.fills {s s' : Editor} (h : Allocates s s') : Fills s s' := by
  rw [h.eq]
  rfl

/-- The line that is being read is the current one. -/
def Builds (t : Prop) (s : Editor) (z : List (List UInt8) × List UInt8) (as : List (List UInt8))
    (xs ys : List ℕ) (n : Node) : Prop :=
  Shows t { s with position := z.2.length + 1, point := ⟨n.line, z.2.length⟩ }
    ⟨z.1, z.2, [], as⟩ xs ys n

section Part
variable {t : Prop} {s : Editor} {bs as : List (List UInt8)} {l part rest : List UInt8}
  {xs ys : List ℕ} {n : Node}

theorem Builds.exists_line (h : Builds t s (bs, l) as xs ys n) : ∃ rest, Holds t n l rest := by
  obtain ⟨rest, hold⟩ := h.exists_holds
  exact ⟨rest, List.append_nil l ▸ hold⟩

theorem Builds.linked {z : List (List UInt8) × List UInt8} (h : Builds t s z as xs ys n) :
    Linked s (xs ++ s.currLine :: ys) :=
  ⟨h.inv.lines.chain, h.inv.lines.nodup, h.inv.first, h.inv.bound⟩

theorem Builds.replace {s' : Editor} {n' : Node} (h : Builds t s (bs, l) as xs ys n)
    (hold : Holds True n' part rest) (hlinks : SameLinks n n') (hs : Fills s s')
    (hheap : s'.heap = Function.update s.heap s.currLine (some n')) (hcurr : s'.currLine = s.currLine)
    (hfresh : s.fresh ≤ s'.fresh) : Builds t s' (bs, part) as xs ys n' := by
  have hold' : Holds t n' (part ++ []) rest := by
    rw [List.append_nil]
    exact hold.weaken fun _ => trivial
  exact Shows.replace h id hheap hlinks hold' hcurr hs.firstLine hfresh hs.eeChinese rfl rfl rfl rfl

theorem Builds.insert {s' : Editor} {n' m : Node} (h : Builds t s (bs, l) as xs ys n)
    (hi : Inserted s.heap s'.heap s.currLine s.fresh n n' m) (hn' : Holds t n' l rest)
    {rest' : List UInt8} (hold : Holds True m part rest') (hs : Fills s s')
    (hcurr : s'.currLine = s.fresh) (hfresh : s.fresh < s'.fresh) :
    Builds t s' (bs ++ [l], part) as (xs ++ [s.currLine]) ys m := by
  have hold' : Holds t m (part ++ []) rest' := by
    rw [List.append_nil]
    exact hold.weaken fun _ => trivial
  refine Shows.insert h hi (Nat.le_refl _) hn'.ok hold' hcurr hs.firstLine hfresh hs.eeChinese rfl rfl
    ?_ rfl
  rw [hn'.content]

/-- The bytes of a part and their terminator, in a line that already counts them. -/
theorem Node.exists_fill (hbytes : n.bytes = l ++ rest)
    (hlen : n.lineLength = (l ++ part).length + 1) (hmax : n.maxLength = l.length + rest.length)
    (hroom : part.length + 1 ≤ rest.length) : ∃ n' rest',
      n.copyFrom ⟨n.line, l.length⟩ (part ++ [0]) = some n' ∧ SameLinks n n' ∧ n'.line = n.line ∧
        Holds True n' (l ++ part) rest' := by
  obtain ⟨old, tail, rfl, hold⟩ : ∃ old tail, rest = old ++ tail ∧ old.length = part.length + 1 :=
    ⟨rest.take (part.length + 1), rest.drop (part.length + 1), (List.take_append_drop _ _).symm,
      by rw [List.length_take]; omega⟩
  have hover : overwrite n.bytes l.length (part ++ [0]) = l ++ part ++ 0 :: tail := by
    rw [hbytes, overwrite_append _ _ _ (by simp [hold])]
    simp
  rw [List.length_append] at hmax
  refine ⟨_, 0 :: tail, Node.copyFrom_eq rfl ?_, ⟨rfl, rfl⟩, rfl, hover, hlen, ?_, by simp,
    fun _ => rfl⟩
  · simp only [hbytes, List.length_append, List.length_singleton]
    omega
  · simp only [List.length_append, List.length_cons]
    omega

theorem Builds.wp_growCurr (h : Builds t s (bs, l) as xs ys n) (k : ℕ)
    {post : Unit → Editor → Prop}
    (hpost : ∀ s' n' rest', Fills s s' → s'.currLine = s.currLine → s.fresh ≤ s'.fresh →
      s'.heap = Function.update s.heap s.currLine (some n') → SameLinks n n' →
      n'.bytes = l ++ rest' → n'.lineLength = l.length + k + 1 →
      n'.maxLength = l.length + rest'.length → k + 1 ≤ rest'.length →
      s'.point = ⟨n'.line, l.length⟩ → post () s') : wp (growCurr (k + 1)) post s := by
  obtain ⟨rest, hold⟩ := h.exists_line
  have hcurr : s.heap s.currLine = some n := h.inv.curr
  rw [growCurr, wp_bind, wp_get, wp_bind, wp_curr hcurr, wp_bind]
  refine hold.wp_resizLine hcurr (k + 1) _ fun s1 n1 rest1 hs1 heap1 hlinks hmax hlen1 hold1 => ?_
  have hcurr1 : s1.heap s1.currLine = some n1 := by
    rw [heap1, hs1.currLine, Function.update_self]
  rw [wp_bind, setPoint, wp_modify, wp_bind,
    wp_curr (s := { s1 with point := ⟨n1.line, n.lineLength - 1⟩ }) hcurr1, wp_setCurr]
  refine hpost _ { n1 with lineLength := n1.lineLength + (k + 1 - 1) } rest1 ?_ hs1.currLine hs1.fresh
    ?_ hlinks hold1.bytes ?_ hold1.size ?_ ?_
  · exact hs1.fills
  · rw [Editor.setNode_heap]
    exact (congrArg (Function.update s1.heap · _) hs1.currLine).trans
      (by rw [heap1, Function.update_idem])
  · show n1.lineLength + (k + 1 - 1) = l.length + k + 1
    rw [hold1.length]
    omega
  · have := List.length_pos_iff.mpr hold.room
    omega
  · show (⟨n1.line, n.lineLength - 1⟩ : Ptr) = _
    rw [hold.length, Nat.add_sub_cancel]

/-- The new node of `get_line`. -/
theorem Linked.wp_linkRead {ids : List ℕ} (h : Linked s ids) (hmem : s.currLine ∈ ids)
    (hcurr : s.heap s.currLine = some n) (k : ℕ) {post : Unit → Editor → Prop}
    (hpost : ∀ s' m, Fills s s' → s'.currLine = s.fresh → s.fresh < s'.fresh →
      Inserted s.heap s'.heap s.currLine s.fresh n { n with next := some s.fresh } m →
      m.bytes.length = k → m.lineLength = k → m.maxLength = k → s'.point = m.start →
      post () s') : wp (linkRead k) post s := by
  have hlt : ∀ j, n.next = some j → j ≠ s.fresh := fun j hj =>
    Nat.ne_of_lt (h.bound j (h.next_mem hmem hcurr hj))
  have hck : s.currLine ≠ s.fresh := Nat.ne_of_lt (h.bound _ hmem)
  have hnc := h.next_ne_self hmem hcurr
  rw [linkRead, wp_bind, wp_get, wp_bind, wp_curr hcurr, wp_bind]
  refine wp_allocLine _ _ fun s1 hs1 hfresh heap1 => ?_
  rw [wp_bind, setNode, wp_modify, wp_bind]
  refine wp_setPrev (fun j hj => ?_) fun s2 hs2 heap2 => ?_
  · obtain ⟨m, hm⟩ := h.chain.exists_node (h.next_mem hmem hcurr hj)
    have hjc : j ≠ s.currLine := fun hjc => hnc (hjc ▸ hj)
    exact ⟨m, by rw [Editor.setNode_heap, Function.update_of_ne hjc, heap1,
      Function.update_of_ne (hlt j hj), hm]⟩
  have hnew : s2.heap s.fresh = some _ := heap2 s.fresh _
    (by rw [Editor.setNode_heap, Function.update_of_ne hck.symm, heap1, Function.update_self])
  rw [if_neg fun hn => hlt _ hn rfl] at hnew
  rw [wp_bind, wp_node hnew, wp_modify]
  have hs12 := hs1.trans ((Allocates.setNode s1 s.currLine _).trans hs2)
  refine hpost _ _ ?_ rfl (Nat.lt_of_lt_of_le hfresh hs2.fresh)
    ⟨hcurr, ?_, rfl, rfl, hnew, rfl, rfl, fun x y hxc hxk hy => ?_⟩ (length_malloc _ _ _) rfl rfl rfl
  · exact hs12.fills
  · rw [heap2 s.currLine _ (by rw [Editor.setNode_heap, Function.update_self]), if_neg hnc]
  · exact heap2 x y (by rw [Editor.setNode_heap, Function.update_of_ne hxc, heap1,
      Function.update_of_ne hxk, hy])

/-- The line that the next bytes go to: the current one, or a new one. -/
def opened (append : Bool) (z : List (List UInt8) × List UInt8) : List (List UInt8) × List UInt8 :=
  if append then z else (z.1 ++ [z.2], [])

/-- The lines that have been read stand where the current line was. -/
structure Grows (t : Prop) (s s' : Editor) (z' : List (List UInt8) × List UInt8)
    (as : List (List UInt8)) (xs ys : List ℕ) : Prop where
  fills : Fills s s'
  builds : ∃ xs' new n', Builds t s' z' as xs' ys n' ∧ xs' ++ [s'.currLine] = xs ++ s.currLine :: new

theorem Builds.wp_getPart (h : Builds t s (bs, l) as xs ys n) (append : Bool) (part : List UInt8) :
    wp (getPart append part) (fun _ s' => Grows t s s' ((opened append (bs, l)).1,
      (opened append (bs, l)).2 ++ part) as xs ys) s := by
  rw [getPart, wp_bind]
  cases append with
  | true =>
    refine h.wp_growCurr part.length fun s1 n1 rest1 hs1 hc1 hfresh heap1 hlinks hb hlen hmax hroom hpt => ?_
    have hcurr1 : s1.heap s1.currLine = some n1 := by rw [heap1, hc1, Function.update_self]
    obtain ⟨n2, rest2, hcopy, hlinks2, -, hold⟩ := Node.exists_fill hb
      (by rw [hlen, List.length_append]) hmax hroom
    rw [wp_bind, wp_get, wp_bind, wp_curr hcurr1, wp_bind, hpt, hcopy, wp_orFault_some, wp_bind,
      wp_setCurr, setPoint, wp_modify]
    refine ⟨hs1, xs, [], n2, h.replace hold (hlinks.trans hlinks2) hs1 ?_ hc1 hfresh, ?_⟩
    · rw [Editor.setNode_heap, hc1, heap1, Function.update_idem]
    · rw [← hc1]
      rfl
  | false =>
    obtain ⟨rest, hold0⟩ := h.exists_line
    refine h.linked.wp_linkRead (by simp) h.inv.curr (part.length + 1) fun s1 m hs1 hc1 hfresh hi hsize hlen hmax hpt => ?_
    have hck : s.currLine ≠ s.fresh := Nat.ne_of_lt (h.inv.bound _ h.inv.mem)
    obtain ⟨m2, rest2, hcopy, hlinks2, -, hold⟩ := Node.exists_fill
      (show m.bytes = [] ++ m.bytes from rfl) hlen (by simp [hmax, hsize]) (Nat.le_of_eq hsize.symm)
    have hcurr1 : s1.heap s1.currLine = some m := by rw [hc1, hi.new]
    rw [wp_bind, wp_get, wp_bind, wp_curr hcurr1, wp_bind, hpt]
    rw [show m.copyFrom m.start (part ++ [0]) = some m2 from hcopy, wp_orFault_some, wp_bind,
      wp_setCurr, setPoint, wp_modify]
    have hi2 : Inserted s.heap (s1.setNode s1.currLine m2).heap s.currLine s.fresh n
        { n with next := some s.fresh } m2 := by
      rw [Editor.setNode_heap, hc1]
      exact hi.set_new hck hlinks2
    have holdn : Holds t { n with next := some s.fresh } l rest :=
      ⟨hold0.bytes, hold0.length, hold0.size, hold0.room, hold0.term⟩
    refine ⟨hs1, xs ++ [s.currLine], [s.fresh], m2, h.insert hi2 holdn hold hs1 hc1 hfresh, ?_⟩
    rw [Editor.setNode_currLine, hc1, List.append_assoc]
    rfl

theorem Grows.after {s1 s2 : Editor} {xs1 new : List ℕ} {z : List (List UInt8) × List UInt8}
    (h : Grows t s1 s2 z as xs1 ys) (hs : Fills s s1)
    (hnew : xs1 ++ [s1.currLine] = xs ++ s.currLine :: new) : Grows t s s2 z as xs ys := by
  obtain ⟨hs2, xs2, new2, n2, h2, hnew2⟩ := h
  refine ⟨hs.trans hs2, xs2, new ++ new2, n2, h2, ?_⟩
  rw [hnew2, ← List.singleton_append, ← List.append_assoc, hnew, List.append_assoc, List.cons_append]

end Part

/-! ### The lines of one read -/

section Line
variable {t : Prop} {as : List (List UInt8)} {ys : List ℕ}

/-- `get_line` splits what has been read at its newlines, from `num` on. -/
theorem Builds.wp_getLineFrom (inString : List UInt8) {length : ℕ} (hlen : length ≤ inString.length)
    (fuel : ℕ) {num : ℕ} (hnum : num ≤ length) (append : Bool) {s : Editor}
    {z : List (List UInt8) × List UInt8} {xs : List ℕ} {n : Node} (h : Builds t s z as xs ys n) :
    wp (getLineFrom inString length fuel num append) (fun append' s' =>
      append' = decide (inString.getD length 0 ≠ 10) ∧
        Grows t s s' (feed 10 (opened append z) ((inString.take length).drop num)) as xs ys) s := by
  induction fuel generalizing num append s z xs n with
  | zero => trivial
  | succ fuel ih =>
    rw [getLineFrom, lineEnd, Nat.add_sub_cancel_left]
    generalize hrest : (inString.take length).drop num = rest
    have hlenr : rest.length = length - num := by
      rw [← hrest, List.length_drop, List.length_take]
      omega
    obtain ⟨hmem, htake, hsplit⟩ := takeWhile_ne_cases 10 rest
    generalize rest.takeWhile (· ≠ 10) = p at hmem htake hsplit ⊢
    rw [htake, wp_bind]
    refine wp_mono (h.wp_getPart append p) fun _ s1 ⟨hs1, xs1, new, n1, h1, hnew⟩ => ?_
    rcases hsplit with hall | hsplit
    · -- the last line of what has been read
      have hstop : num + p.length = length := by
        rw [← hall, hlenr]
        omega
      rw [if_neg (by omega), wp_pure, hstop, hall, feed_of_notMem 10 _ p hmem]
      exact ⟨by simp, hs1, xs1, new, n1, h1, hnew⟩
    · have hlenp := congrArg List.length hsplit
      rw [List.length_append, List.length_cons, List.length_drop] at hlenp
      have hlt : num + p.length < length := by omega
      rw [if_pos hlt, show (decide (num + p.length = length) && _) = false by simp; omega]
      refine wp_mono (ih (by omega) false h1) fun append' s2 ⟨happ, hg⟩ => ⟨happ, ?_⟩
      rw [hsplit, feed_line 10 _ p _ hmem, ← hrest, List.drop_drop]
      exact hg.after hs1 hnew

theorem Builds.of_core {s s' : Editor} {z : List (List UInt8) × List UInt8} {xs : List ℕ} {n : Node}
    (h : Builds t s z as xs ys n) (hs : s'.core = s.core) : Builds t s' z as xs ys n := by
  refine Shows.of_core h ?_
  simp only [Editor.core, Prod.mk.injEq] at hs ⊢
  obtain ⟨hheap, hfresh, hfirst, hcurr, -, -, hnarrow⟩ := hs
  exact ⟨hheap, hfresh, hfirst, hcurr, trivial, trivial, hnarrow⟩

/-! ### All reads -/

/-- The lines after all reads. Whether a read goes on with the line before it depends on the byte
behind the bytes it has brought. -/
def feedChunks : List (List UInt8) → InString → Bool → List (List UInt8) × List UInt8 →
    List (List UInt8) × List UInt8
  | [], _, _, z => z
  | chunk :: chunks, b, append, z =>
    if chunk = [] then z
    else feedChunks chunks (b.fill chunk)
      (decide ((b.fill chunk).bytes.getD (chunk.take 512).length 0 ≠ 10))
      (feed 10 (opened append z) (chunk.take 512))

theorem Builds.wp_readLoop (chunks : List (List UInt8)) (append : Bool) {s : Editor}
    {z : List (List UInt8) × List UInt8} {xs : List ℕ} {n : Node} (h : Builds t s z as xs ys n) :
    wp (readLoop chunks append) (fun _ s' => Grows t { s with inString := s'.inString } s'
      (feedChunks chunks s.inString append z) as xs ys) s := by
  induction chunks generalizing append s z xs n with
  | nil => exact ⟨rfl, xs, [], n, h, rfl⟩
  | cons chunk chunks ih =>
    rw [readLoop, feedChunks]
    by_cases hnil : chunk = []
    · rw [if_pos hnil, if_pos hnil]
      exact ⟨rfl, xs, [], n, h, rfl⟩
    have hpos : 0 < (chunk.take 512).length := by
      have := List.length_pos_iff.mpr hnil
      rw [List.length_take]
      omega
    have htake : (s.inString.fill chunk).bytes.take (chunk.take 512).length = chunk.take 512 :=
      List.take_left
    have hlen : (chunk.take 512).length ≤ (s.inString.fill chunk).bytes.length := by
      rw [InString.fill, List.length_append]
      exact Nat.le_add_right _ _
    rw [if_neg hnil, if_neg hnil, wp_bind, wp_modify, wp_bind, wp_get, wp_bind, getLine, if_pos hpos]
    have h0 : Builds t { s with inString := s.inString.fill chunk } z as xs ys n := h.of_core rfl
    refine wp_mono (Builds.wp_getLineFrom _ hlen _ (Nat.zero_le _) append h0)
      fun append' s1 ⟨happ, hs1, xs1, new, n1, h1, hnew⟩ => ?_
    rw [htake, List.drop_zero] at h1
    subst happ
    have hin : s1.inString = s.inString.fill chunk := hs1.inString
    refine wp_mono (ih _ h1) fun _ s2 hg => ?_
    rw [hin] at hg
    exact hg.after (hs1.withInString s2.inString) hnew

end Line

theorem grown_opened (append : Bool) (z : List (List UInt8) × List UInt8) {c : List UInt8}
    (hc : c ≠ []) : Grown z (feed 10 (opened append z) c) := by
  cases append with
  | true => exact grown_feed 10 z c hc
  | false =>
    rcases grown_feed 10 (z.1 ++ [z.2], []) c hc with h | ⟨h, -⟩
    · exact .inl (Nat.lt_trans (by simp) h)
    · exact .inl (by rw [opened, if_neg Bool.false_ne_true, h]; simp)

theorem feedChunks_eq_or_grown (chunks : List (List UInt8)) (b : InString) (append : Bool)
    (z : List (List UInt8) × List UInt8) :
    feedChunks chunks b append z = z ∨ Grown z (feedChunks chunks b append z) := by
  induction chunks generalizing b append z with
  | nil => exact .inl rfl
  | cons chunk chunks ih =>
    rw [feedChunks]
    split
    · exact .inl rfl
    · have hne : chunk.take 512 ≠ [] := by simpa
      have hstep := grown_opened append z hne
      rcases ih (b.fill chunk) (decide ((b.fill chunk).bytes.getD (chunk.take 512).length 0 ≠ 10))
        (feed 10 (opened append z) (chunk.take 512)) with h | h
      · exact .inr (h.symm ▸ hstep)
      · exact .inr (hstep.trans h)

/-- A file that is not empty leaves something to see. -/
theorem grown_feedChunks {chunks : List (List UInt8)} (hread : canRead chunks = true) (b : InString)
    (append : Bool) (z : List (List UInt8) × List UInt8) :
    Grown z (feedChunks chunks b append z) := by
  cases chunks with
  | nil => simp [canRead] at hread
  | cons chunk chunks =>
    have hne : chunk ≠ [] := by simpa [canRead] using hread
    have hstep := grown_opened append z (c := chunk.take 512) (by simpa)
    rw [feedChunks, if_neg hne]
    rcases feedChunks_eq_or_grown chunks (b.fill chunk)
      (decide ((b.fill chunk).bytes.getD (chunk.take 512).length 0 ≠ 10))
      (feed 10 (opened append z) (chunk.take 512)) with h | h
    · exact h.symm ▸ hstep
    · exact hstep.trans h

/-- The reads that bring the content of a file: 512 bytes each, and a last shorter one. -/
def reads (c : List UInt8) : List (List UInt8) :=
  (List.range (c.length / 512 + 1)).map fun i => (c.drop (512 * i)).take 512

theorem reads_of_lt {c : List UInt8} (h : c.length < 512) : reads c = [c] := by
  rw [reads, Nat.div_eq_of_lt h]
  simp [List.take_of_length_le (Nat.le_of_lt h)]

theorem reads_of_le {c : List UInt8} (h : 512 ≤ c.length) :
    reads c = c.take 512 :: reads (c.drop 512) := by
  have hdiv : c.length / 512 = (c.length - 512) / 512 + 1 := by omega
  rw [reads, hdiv, List.range_succ_eq_map, List.map_cons, List.map_map, reads, List.length_drop]
  refine congrArg (_ :: ·) (List.map_congr_left fun i _ => ?_)
  rw [Function.comp, List.drop_drop, Nat.mul_succ, Nat.add_comm]

theorem canRead_reads (c : List UInt8) : canRead (reads c) = decide (c ≠ []) := by
  by_cases h : c.length < 512
  · simp [reads_of_lt h, canRead]
  · have hne : c ≠ [] := fun hc => h (by simp [hc])
    simp [reads_of_le (Nat.le_of_not_lt h), canRead, hne]

/-- Where the reads are cut makes no difference. -/
theorem feedChunks_reads (c : List UInt8) (b : InString) (append : Bool)
    (z : List (List UInt8) × List UInt8) :
    feedChunks (reads c) b append z = if c = [] then z else feed 10 (opened append z) c := by
  induction hn : c.length using Nat.strongRecOn generalizing c b append z with
  | _ k ih =>
    by_cases h : c.length < 512
    · rw [reads_of_lt h, feedChunks, List.take_of_length_le (Nat.le_of_lt h)]
      rfl
    have hle : 512 ≤ c.length := Nat.le_of_not_lt h
    have hlen : (c.take 512).length = 512 := by rw [List.length_take, Nat.min_eq_left hle]
    have hne : c.take 512 ≠ [] := List.length_pos_iff.mp (by omega)
    have hlast : (b.fill (c.take 512)).bytes.getD 512 0 ≠ 10 := by
      rw [(b.fill (c.take 512)).last]
      decide
    have hc : c ≠ [] := List.length_pos_iff.mp (by omega)
    have hsplit : feed 10 (opened append z) c =
        feed 10 (feed 10 (opened append z) (c.take 512)) (c.drop 512) := by
      rw [← feed_append, List.take_append_drop]
    rw [if_neg hc, reads_of_le hle, feedChunks, if_neg hne, List.take_take, Nat.min_self, hlen,
      decide_eq_true hlast, ih (c.drop 512).length (by rw [List.length_drop]; omega) _ _ _ _ rfl,
      hsplit]
    split
    · rw [‹c.drop 512 = []›, feed_nil]
    · rfl

/-! ### The whole of `get_file` -/

section File
variable {t : Prop} {s : Editor} {bs as : List (List UInt8)} {l r : List UInt8} {xs ys : List ℕ}
  {n : Node}

/-- The current line goes, and the one before it becomes current. -/
theorem Linked.wp_unlinkCurr {p : ℕ} (h : Linked s (xs ++ p :: s.currLine :: ys))
    (hcurr : s.heap s.currLine = some n) {m : Node} (hm : s.heap p = some m)
    {post : Unit → Editor → Prop}
    (hpost : ∀ s', Fills s s' → s'.currLine = p → s.fresh ≤ s'.fresh →
      Removed s.heap s'.heap p s.currLine m { m with next := n.next } n → post () s') :
    wp unlinkCurr post s := by
  have hprev : n.prev = some p := h.chain.prev_eq hcurr
  have hchain : Chain s.heap none ((xs ++ [p]) ++ s.currLine :: ys) := by simpa using h.chain
  obtain ⟨-, hxc, hyc, hxy⟩ := nodup_around
    (show ((xs ++ [p]) ++ s.currLine :: ys).Nodup by simpa using h.nodup)
  have hpc : p ≠ s.currLine := hxc p (by simp)
  have hhead : n.next = ys.head? := hchain.next_eq hcurr
  have hnp : n.next ≠ some p := fun hn => hxy p (by simp) (List.mem_of_head? (hhead ▸ hn))
  rw [unlinkCurr, wp_bind, wp_get, wp_bind, wp_curr hcurr, wp_bind, hprev, wp_orFault_some, wp_bind,
    wp_node hm, wp_bind, setNode, wp_modify, wp_bind]
  refine wp_setPrev (fun j hj => ?_) fun s2 hs2 heap2 => ?_
  · obtain ⟨y, hy⟩ := h.chain.exists_node (h.next_mem (by simp) hcurr hj)
    have hjp : j ≠ p := fun hjp => hnp (hjp ▸ hj)
    exact ⟨y, (Function.update_of_ne hjp _ _).trans hy⟩
  rw [wp_modify]
  have hs12 := (Allocates.setNode s p { m with next := n.next }).trans hs2
  refine hpost _ hs12.fills rfl hs12.fresh ?_
  dsimp only
  refine ⟨hm, h.chain.next_eq hm, hcurr, ?_, rfl, rfl, fun x y hxp hxc hy => ?_⟩
  · rw [Function.update_of_ne hpc, heap2 p _ (by rw [Editor.setNode_heap, Function.update_self]),
      if_neg hnp]
  · rw [Function.update_of_ne hxc]
    exact heap2 x y (by rw [Editor.setNode_heap, Function.update_of_ne hxp, hy])

/-- An empty last line is taken away again. -/
theorem Builds.wp_unlinkCurr {line : List UInt8} {p : ℕ}
    (h : Builds t s (bs ++ [line], []) as (xs ++ [p]) ys n) :
    wp unlinkCurr (fun _ s' => Fills s s' ∧ s'.currLine = p ∧
      ∃ m, Builds t s' (bs, line) as xs ys m) s := by
  have hcurr : s.heap s.currLine = some n := h.inv.curr
  obtain ⟨m, rest, (hm : s.heap p = some m), -, -, hold⟩ := Shows.exists_before h
  have hlinked : Linked s (xs ++ p :: s.currLine :: ys) := by simpa using h.linked
  refine hlinked.wp_unlinkCurr hcurr hm fun s' hs' hc hfresh hr => ?_
  refine ⟨hs', hc, { m with next := n.next }, ?_⟩
  have hold' : Holds t { m with next := n.next } (line ++ []) rest := by
    rw [List.append_nil]
    exact ⟨hold.bytes, hold.length, hold.size, hold.room, hold.term⟩
  refine Shows.remove h hr hold' hc hs'.firstLine hfresh hs'.eeChinese rfl rfl ?_ rfl
  rw [hold.content]

/-- What the reader of a file finds as it was. -/
def Editor.side (s : Editor) : ℕ × ℕ × Bool × Option (List UInt8) × Option (List UInt8) × ℕ :=
  (s.tmpLine, s.position, s.inputFile, s.dWord, s.dLine, s.dltLineLength)

theorem Fills.side {s' : Editor} (h : Fills s s') : s'.side = s.side :=
  (congrArg Editor.side (show s.idle = s'.idle from h)).symm

/-- A line that is not empty is split at the cursor, and the file goes between the halves. -/
theorem Shows.wp_openLine (h : Shows t s ⟨bs, l, r, as⟩ xs ys n) :
    wp openLine (fun append s' => append = decide (l ++ r = []) ∧ s'.side = s.side ∧
      s'.inString = s.inString ∧ s'.currLine = s.currLine ∧ ∃ ys' n',
        Builds t s' (bs, l) (if l ++ r = [] then as else r :: as) xs ys' n') s := by
  have hlen : n.lineLength = l.length + r.length + 1 := h.lineLength_eq
  rw [openLine, wp_bind, wp_curr h.inv.curr]
  refine wp_ite (fun hlt => ?_) fun hle => ?_
  · have hne : l ++ r ≠ [] := List.length_pos_iff.mp (by rw [List.length_append]; omega)
    rw [wp_bind]
    refine wp_mono (h.wp_insertLine 0 false) fun _ s1 ⟨n1, htmp, h1, hs1⟩ => ?_
    obtain ⟨m, rest, hm, hprev, -, hold⟩ := h1.exists_before
    rw [wp_bind]
    refine h1.inv.wp_left_start 0 false h1.point_eq hprev hm fun s2 hs2 hc2 hpos2 htmp2 _ => ?_
    have hpos : s2.position = s.position := by rw [hpos2, hold.length]; exact h.left.symm
    have hs02 : Edited s s2 := hs1.touches (.of_moves hs2)
    have hin : s2.inString = s.inString := (congrArg Editor.inString hs02).symm
    have hfile : s2.inputFile = s.inputFile := (congrArg Editor.inputFile hs02).symm
    have hword : s2.dWord = s.dWord := (congrArg Editor.dWord hs02).symm
    have hline : s2.dLine = s.dLine := (congrArg Editor.dLine hs02).symm
    have hdlt : s2.dltLineLength = s.dltLineLength := (congrArg Editor.dltLineLength hs02).symm
    rw [wp_pure, if_neg hne, decide_eq_false hne]
    refine ⟨rfl, ?_, hin, hc2, s1.currLine :: ys, m, ?_⟩
    · rw [Editor.side, Editor.side, htmp2, htmp, hpos, hfile, hword, hline, hdlt]
    · refine h1.enter_prev hm hs2 ?_ hc2 hold.length.symm
      refine h1.inv.move hs2 ?_ (hc2.symm ▸ hm) (Nat.le_add_left 1 _) (Nat.le_of_eq hold.length.symm) rfl
      rw [show s2.currLine = s.currLine from hc2]
      simp
  · have hnil : l = [] ∧ r = [] := by
      rw [← List.length_eq_zero_iff, ← List.length_eq_zero_iff]
      omega
    obtain ⟨rfl, rfl⟩ := hnil
    refine ⟨rfl, rfl, rfl, rfl, ys, n, Shows.of_core h ?_⟩
    have hleft : s.position = 1 := h.left
    have hpt : s.point = ⟨n.line, 0⟩ := h.point_eq
    rw [Editor.core, Editor.core, hleft, hpt]
    rfl

/-- The text after a file has been read at the cursor. -/
def spliced (chunks : List (List UInt8)) (b : InString) (z : Zipper) : List (List UInt8) :=
  let here := z.left ++ z.right
  let z1 := feedChunks chunks b (decide (here = [])) (z.before, z.left)
  (if canRead chunks = true ∧ z1.2 = [] then z1.1 else z1.1 ++ [z1.2]) ++
    if here = [] then z.after else z.right :: z.after

/-- A file that is not empty comes in line by line. -/
theorem spliced_reads {c : List UInt8} (hc : c ≠ []) (b : InString) (z : Zipper) :
    spliced (reads c) b z = if z.left ++ z.right = [] then z.before ++ lines 10 c ++ z.after
      else z.before ++ [z.left] ++ lines 10 c ++ z.right :: z.after := by
  have hread : canRead (reads c) = true := by rw [canRead_reads]; exact decide_eq_true hc
  have hend := ite_feed_eq_append_lines 10 c
  by_cases hnil : z.left ++ z.right = []
  · obtain ⟨hleft, hright⟩ := List.append_eq_nil_iff.mp hnil
    simp only [spliced, feedChunks_reads, if_neg hc, hread, true_and, hleft, hright, List.append_nil,
      decide_true, opened, if_true, hend]
  · simp only [spliced, feedChunks_reads, if_neg hc, hread, true_and, hnil, decide_false, opened,
      Bool.false_eq_true, if_false, hend]

/-- A list that has grown at its end still has its elements when the last one is taken away. -/
theorem exists_concat_of_lt {xs xs' new : List ℕ} {c d : ℕ} (h : xs' ++ [d] = xs ++ c :: new)
    (hlt : xs.length < xs'.length) : ∃ ws p, xs' = ws ++ [p] ∧ c ∈ xs' := by
  obtain ⟨ws, p, rfl⟩ : ∃ ws p, xs' = ws ++ [p] :=
    List.eq_nil_or_concat' xs' |>.resolve_left (List.length_pos_iff.mp (Nat.zero_lt_of_lt hlt))
  have hidx : (ws ++ [p] ++ [d])[xs.length]? = some c := by
    rw [h]
    simp
  rw [List.getElem?_append_left hlt] at hidx
  exact ⟨ws, p, rfl, List.mem_of_getElem? hidx⟩

theorem Builds.listed {z : List (List UInt8) × List UInt8} (h : Builds t s z as xs ys n) :
    Listed t s (xs ++ s.currLine :: ys) :=
  ⟨h.inv.lines, h.inv.first, h.inv.bound, h.inv.narrow⟩

theorem Builds.text_eq {z : List (List UInt8) × List UInt8} (h : Builds t s z as xs ys n) :
    s.text = z.1 ++ z.2 :: as := by
  have htext := Shows.text_eq h
  rw [Zipper.text, List.append_nil] at htext
  exact htext

/-- What holds after `get_file`, whatever the cursor has become. -/
structure Received (t : Prop) (s s' : Editor) (text : List (List UInt8)) : Prop where
  side : s'.side = s.side
  listed : ∃ ids, Listed t s' ids ∧ s.currLine ∈ ids
  text : s'.text = text

theorem Received.wp_rest {s1 : Editor} {text : List (List UInt8)} (h : Received t s s1 text)
    (chunks : List (List UInt8)) :
    wp (do
      onlyIf ((← get).inputFile = false ∧ canRead chunks) markChanged
      onlyIf ((← get).recvFile = true) (modify fun s => { s with inChar := -1 }))
      (fun _ s' => Received t s s' text) s1 := by
  have hlast : ∀ s2, Received t s s2 text → wp (do
      onlyIf ((← get).recvFile = true) (modify fun s => { s with inChar := -1 }))
      (fun _ s' => Received t s s' text) s2 := by
    rintro s2 ⟨hside, ⟨ids, hids, hmem⟩, htext⟩
    rw [wp_bind, wp_get]
    refine wp_onlyIf (fun _ => ?_) fun _ => ⟨hside, ⟨ids, hids, hmem⟩, htext⟩
    exact ⟨hside, ⟨ids, ⟨hids.lines, hids.first, hids.bound, hids.narrow⟩, hmem⟩, htext⟩
  obtain ⟨hside, ⟨ids, hids, hmem⟩, htext⟩ := h
  rw [wp_bind, wp_get, wp_bind]
  refine wp_onlyIf (fun _ => hlast _ ?_) fun _ => hlast s1 ⟨hside, ⟨ids, hids, hmem⟩, htext⟩
  exact ⟨hside, ⟨ids, ⟨hids.lines, hids.first, hids.bound, hids.narrow⟩, hmem⟩, htext⟩

theorem Shows.wp_getFile (h : Shows t s ⟨bs, l, r, as⟩ xs ys n) (chunks : List (List UInt8)) :
    wp (getFile chunks)
      (fun _ s' => Received t s s' (spliced chunks s.inString ⟨bs, l, r, as⟩)) s := by
  rw [getFile, wp_bind]
  refine wp_mono h.wp_openLine fun append s1 ⟨happ, hside1, hin1, hc1, ys1, n1, h1⟩ => ?_
  rw [wp_bind]
  refine wp_mono (h1.wp_readLoop chunks append) fun _ s2 ⟨hs2, xs2, new, n2, h2, hnew⟩ => ?_
  subst happ
  rw [hin1] at h2
  have hgrown := fun hread : canRead chunks = true =>
    grown_feedChunks hread s.inString (decide (l ++ r = [])) (bs, l)
  generalize hz : feedChunks chunks s.inString (decide (l ++ r = [])) (bs, l) = z1 at h2 hgrown
  generalize has : (if l ++ r = [] then as else r :: as) = as1 at h1 h2
  have hspl : spliced chunks s.inString ⟨bs, l, r, as⟩ =
      (if canRead chunks = true ∧ z1.2 = [] then z1.1 else z1.1 ++ [z1.2]) ++ as1 := by
    rw [← hz, ← has]
    rfl
  have hside2 : s2.side = s.side := hs2.side.trans hside1
  have hcurr2 : s2.heap s2.currLine = some n2 := h2.inv.curr
  have hlen2 : n2.lineLength = z1.2.length + 1 := Shows.lineLength_eq h2
  have hxs2 : xs2.length = z1.1.length := (List.length_map _).symm.trans (congrArg List.length h2.before)
  have hxs : xs.length = bs.length := (List.length_map _).symm.trans (congrArg List.length h1.before)
  have hnew' : xs2 ++ [s2.currLine] = xs ++ s.currLine :: new := hnew.trans (by rw [hc1])
  rw [wp_bind, wp_curr hcurr2, wp_bind, hspl]
  refine wp_onlyIf (fun hc => ?_) fun hc => ?_
  · obtain ⟨bs2, l2⟩ := z1
    have hnil : l2 = [] := List.length_eq_zero_iff.mp (Nat.succ.inj (hc.2.symm.trans hlen2)).symm
    subst hnil
    have hlt : bs.length < bs2.length := (hgrown hc.1).resolve_right fun hr => hr.2 rfl
    obtain ⟨ws, p, rfl, hmem⟩ := exists_concat_of_lt hnew' (by rw [hxs, hxs2]; exact hlt)
    obtain ⟨bs3, line, rfl⟩ : ∃ bs3 line, bs2 = bs3 ++ [line] :=
      (List.eq_nil_or_concat' bs2).resolve_left (List.length_pos_iff.mp (Nat.zero_lt_of_lt hlt))
    refine wp_mono h2.wp_unlinkCurr fun _ s3 ⟨hs3, hc3, m, h3⟩ => ?_
    refine Received.wp_rest ⟨hs3.side.trans hside2, ⟨_, h3.listed, ?_⟩, ?_⟩ chunks
    · rw [hc3, ← List.singleton_append, ← List.append_assoc]
      exact List.mem_append_left _ hmem
    · rw [h3.text_eq, if_pos ⟨hc.1, rfl⟩, List.append_assoc, List.singleton_append]
  · have hkeep : ¬ (canRead chunks = true ∧ z1.2 = []) := fun hread =>
      hc ⟨hread.1, by rw [hlen2, hread.2]; rfl⟩
    refine Received.wp_rest ⟨hside2, ⟨_, h2.listed, ?_⟩, ?_⟩ chunks
    · rw [← List.singleton_append, ← List.append_assoc, hnew']
      simp
    · rw [h2.text_eq, if_neg hkeep, List.append_assoc, List.singleton_append]

end File

end BsdAdditions.Ee
