import BsdAdditions.Common.Bsearch
import BsdAdditions.Common.CString
import BsdAdditions.Common.Overwrite
import BsdAdditions.Indent.Args

/-! The table of type names as `lexi.c` keeps it, an array that grows, and its binary search. The list
that `addTypename` builds is what the array holds. -/
namespace BsdAdditions.Indent
open Common

/-- The allocated cells, which have no value before they are written, and the index of the last one in
use. -/
structure Typenames where
  cells : List (Option (List UInt8))
  top : ℤ

namespace Typenames

def alloc : Typenames := ⟨List.replicate 16 none, -1⟩

/-- `realloc` to twice the size. -/
def grow (t : Typenames) : Typenames :=
  if t.cells.length ≤ t.top + 1 then { t with cells := t.cells ++ List.replicate t.cells.length none } else t

def read (t : Typenames) (i : ℤ) : Option (List UInt8) :=
  if 0 ≤ i then t.cells[i.toNat]?.join else none

/-- `typenames[++typename_top] = key`. -/
def append (t : Typenames) (key : List UInt8) : Option Typenames :=
  if 0 ≤ t.top + 1 ∧ t.top + 1 < t.cells.length then
    some ⟨t.cells.set (t.top + 1).toNat (some key), t.top + 1⟩
  else none

/-- The search for the place of a new key, which nothing but the names themselves stops. -/
def findPlace (key : List UInt8) : List (Option (List UInt8)) → Option (ℕ × ℤ)
  | [] => none
  | none :: _ => none
  | some name :: cells =>
    if 0 < strcmp key name then (findPlace key cells).map fun r => (r.1 + 1, r.2)
    else some (0, strcmp key name)

/-- The names from `p` on move up by one cell. -/
def insertAt (t : Typenames) (key : List UInt8) (p : ℕ) : Option Typenames :=
  let moved := (t.cells.drop p).take (t.top + 1 - p).toNat
  if p + 1 + moved.length ≤ t.cells.length then
    some ⟨(overwrite t.cells (p + 1) moved).set p (some key), t.top + 1⟩
  else none

/-- Without a result a cell outside the array, or one without a value, has been used. -/
def addTypename (t : Typenames) (key : List UInt8) : Option Typenames := do
  let t := t.grow
  if t.top = -1 then t.append key
  else
    let last ← t.read t.top
    let comparison := strcmp key last
    if 0 ≤ comparison then
      if comparison = 0 then some t else t.append key
    else
      let (p, comparison) ← findPlace key t.cells
      if comparison = 0 then some t else t.insertAt key p

/-- `typenames[0..typename_top]`. -/
def names (t : Typenames) : Option (List (List UInt8)) := (t.cells.take (t.top + 1).toNat).mapM id

/-- Whether `lexi` finds the token in the table. -/
def find (t : Typenames) (token : List UInt8) : Option Bool := do
  if 0 ≤ t.top then
    let names ← t.names
    return (← bsearch (strcmp token) names 0 (t.top + 1).toNat).isSome
  else return false

end Typenames

/-! ### The list -/

variable {key : List UInt8} {names : List (List UInt8)}

theorem mem_insertTypename {name : List UInt8} : name ∈ insertTypename key names ↔ name = key ∨ name ∈ names := by
  induction names with
  | nil => simp [insertTypename]
  | cons n names ih =>
    rw [insertTypename]
    split_ifs with hlt heq
    · simp only [List.mem_cons, ih]
      tauto
    · simp [heq]
    · simp

theorem mem_addTypename {name : List UInt8} : name ∈ addTypename key names ↔ name = key ∨ name ∈ names := by
  unfold addTypename
  cases h : names.getLast? with
  | none =>
    obtain rfl := List.getLast?_eq_none_iff.mp h
    simp
  | some last =>
    dsimp only
    split_ifs with hlt heq
    · exact mem_insertTypename
    · have hmem := List.mem_of_getLast? h
      constructor
      · exact .inr
      · rintro (rfl | hin)
        · exact heq ▸ hmem
        · exact hin
    · simp only [List.mem_append, List.mem_singleton]
      exact or_comm

theorem pairwise_insertTypename (h : names.Pairwise (· < ·)) : (insertTypename key names).Pairwise (· < ·) := by
  induction names with
  | nil => simp [insertTypename]
  | cons n names ih =>
    obtain ⟨hn, hnames⟩ := List.pairwise_cons.mp h
    rw [insertTypename]
    split_ifs with hlt heq
    · refine List.pairwise_cons.mpr ⟨fun x hx => ?_, ih hnames⟩
      rcases mem_insertTypename.mp hx with rfl | hx
      · exact hlt
      · exact hn x hx
    · exact h
    · have hkey : key < n := Std.lt_of_le_of_ne hlt heq
      refine List.pairwise_cons.mpr ⟨fun x hx => ?_, h⟩
      rcases List.mem_cons.mp hx with rfl | hx
      · exact hkey
      · exact List.lt_trans hkey (hn x hx)

theorem pairwise_addTypename (h : names.Pairwise (· < ·)) : (addTypename key names).Pairwise (· < ·) := by
  unfold addTypename
  cases hlast : names.getLast? with
  | none => simp
  | some last =>
    dsimp only
    split_ifs with hlt heq
    · exact pairwise_insertTypename h
    · exact h
    · have hkey : last < key := Std.lt_of_le_of_ne hlt (Ne.symm heq)
      refine List.pairwise_append.mpr ⟨h, List.pairwise_singleton _ _, fun x hx y hy => ?_⟩
      obtain rfl := List.mem_singleton.mp hy
      obtain ⟨init, rfl⟩ := List.getLast?_eq_some_iff.mp hlast
      rcases List.mem_append.mp hx with hx | hx
      · exact List.lt_trans ((List.pairwise_append.mp h).2.2 x hx last (by simp)) hkey
      · obtain rfl := List.mem_singleton.mp hx
        exact hkey

theorem insertTypename_append {pre post : List (List UInt8)} {name : List UInt8} (hpre : ∀ x ∈ pre, x < key)
    (hname : ¬ name < key) : insertTypename key (pre ++ name :: post) =
      pre ++ if key = name then name :: post else key :: name :: post := by
  induction pre with
  | nil => simp [insertTypename, hname]
  | cons n pre ih =>
    rw [List.cons_append, insertTypename, if_pos (hpre n List.mem_cons_self),
      ih fun x hx => hpre x (List.mem_cons_of_mem n hx)]
    rfl

/-! ### The array -/

/-- The array holds these names from its first cell on. -/
structure Typenames.Holds (t : Typenames) (names : List (List UInt8)) : Prop where
  cells : ∃ rest, t.cells = names.map some ++ rest
  top : t.top + 1 = names.length
  allocated : 0 < t.cells.length
  strings : ∀ name ∈ names, 0 ∉ name

namespace Typenames
variable {t : Typenames}

theorem holds_alloc : alloc.Holds [] := ⟨⟨_, rfl⟩, rfl, by decide, by simp⟩

/-- After the growth there is a free cell. -/
theorem Holds.grow (h : t.Holds names) : t.grow.Holds names ∧ names.length < t.grow.cells.length := by
  obtain ⟨⟨rest, hcells⟩, htop, hpos, hstr⟩ := h
  have hlen := congrArg List.length hcells
  rw [List.length_append, List.length_map] at hlen
  rw [Typenames.grow, htop]
  split_ifs with hfull
  · refine ⟨⟨⟨rest ++ List.replicate t.cells.length none, ?_⟩, htop, ?_, hstr⟩, ?_⟩
    · rw [hcells, List.append_assoc]
    · rw [List.length_append]
      omega
    · rw [List.length_append, List.length_replicate]
      omega
  · exact ⟨⟨⟨rest, hcells⟩, htop, hpos, hstr⟩, by omega⟩

theorem Holds.append (h : t.Holds names) (hroom : names.length < t.cells.length) (hkey : 0 ∉ key) :
    ∃ t', t.append key = some t' ∧ t'.Holds (names ++ [key]) := by
  obtain ⟨⟨rest, hcells⟩, htop, hpos, hstr⟩ := h
  have hin : 0 ≤ t.top + 1 ∧ t.top + 1 < t.cells.length := by omega
  refine ⟨_, if_pos hin, ⟨rest.drop 1, ?_⟩, ?_, ?_, ?_⟩
  · cases rest with
    | nil =>
      rw [hcells, List.append_nil, List.length_map] at hroom
      omega
    | cons r rest =>
      rw [htop, hcells]
      simp
  · simp [htop]
  · simpa using hpos
  · intro name hname
    rcases List.mem_append.mp hname with hname | hname
    · exact hstr name hname
    · exact List.mem_singleton.mp hname ▸ hkey

/-- The search stops within the names when one of them is not below the key. -/
theorem findPlace_map (hkey : 0 ∉ key) (hstr : ∀ name ∈ names, 0 ∉ name) {last : List UInt8}
    (hlast : last ∈ names) (hle : ¬ last < key) (rest : List (Option (List UInt8))) :
    ∃ pre name post, names = pre ++ name :: post ∧ (∀ x ∈ pre, x < key) ∧ ¬ name < key ∧
      findPlace key (names.map some ++ rest) = some (pre.length, strcmp key name) := by
  induction names with
  | nil => simp at hlast
  | cons n names ih =>
    rw [List.map_cons, List.cons_append, findPlace]
    by_cases hlt : n < key
    · have hmem : last ∈ names := by
        rcases List.mem_cons.mp hlast with rfl | hmem
        · exact absurd hlt hle
        · exact hmem
      obtain ⟨pre, name, post, rfl, hpre, hname, hfind⟩ :=
        ih (fun x hx => hstr x (List.mem_cons_of_mem n hx)) hmem
      refine ⟨n :: pre, name, post, rfl, ?_, hname, ?_⟩
      · simpa [hlt] using hpre
      · rw [if_pos ((strcmp_pos_iff hkey).mpr hlt), hfind]
        rfl
    · refine ⟨[], n, names, rfl, by simp, hlt, ?_⟩
      rw [if_neg (mt (strcmp_pos_iff hkey).mp hlt)]
      rfl

/-- A new key in front of the names that are not below it. -/
theorem Holds.insertAt {pre post : List (List UInt8)} (h : t.Holds (pre ++ post))
    (hroom : (pre ++ post).length < t.cells.length) (hkey : 0 ∉ key) :
    ∃ t', t.insertAt key pre.length = some t' ∧ t'.Holds (pre ++ key :: post) := by
  obtain ⟨⟨rest, hcells⟩, htop, hpos, hstr⟩ := h
  obtain ⟨last, rest, rfl⟩ : ∃ last rest', rest = last :: rest' := by
    refine List.exists_cons_of_ne_nil ?_
    rintro rfl
    rw [hcells, List.append_nil, List.length_map] at hroom
    omega
  have hcells' : t.cells = pre.map some ++ (post.map some ++ last :: rest) := by
    rw [hcells, List.map_append, List.append_assoc]
  have hmoved : (t.cells.drop pre.length).take (t.top + 1 - pre.length).toNat = post.map some := by
    have hpre : pre.length = (pre.map (some : _ → Option (List UInt8))).length := by simp
    have hpost : (t.top + 1 - pre.length).toNat = (post.map (some : _ → Option (List UInt8))).length := by
      rw [htop, List.length_append, List.length_map]
      omega
    rw [hpost, hcells', hpre, List.drop_left, List.take_left]
  have hfits : pre.length + 1 + (post.map (some : _ → Option (List UInt8))).length ≤ t.cells.length := by
    rw [List.length_map]
    rw [List.length_append] at hroom
    omega
  have hinsert : t.insertAt key pre.length = some ⟨(overwrite t.cells (pre.length + 1) (post.map some)).set
      pre.length (some key), t.top + 1⟩ := by
    rw [Typenames.insertAt, hmoved, if_pos hfits]
  refine ⟨_, hinsert, ⟨rest, ?_⟩, ?_, ?_, ?_⟩
  · have hshift := overwrite_shift_set (pre.map some) (post.map some) rest last (some key)
    rw [List.length_map] at hshift
    rw [hcells', hshift]
    simp
  · change t.top + 1 + 1 = _
    rw [htop, List.length_append, List.length_append, List.length_cons]
    omega
  · rwa [List.length_set, length_overwrite hfits]
  · intro name hname
    simp only [List.mem_append, List.mem_cons] at hname hstr
    rcases hname with hname | rfl | hname
    · exact hstr name (.inl hname)
    · exact hkey
    · exact hstr name (.inr hname)

theorem Holds.read_top (h : t.Holds names) {last : List UInt8} (hlast : names.getLast? = some last) :
    t.read t.top = some last := by
  obtain ⟨⟨rest, hcells⟩, htop, -, -⟩ := h
  obtain ⟨init, rfl⟩ := List.getLast?_eq_some_iff.mp hlast
  have hindex : t.top = init.length := by
    rw [List.length_append, List.length_singleton] at htop
    omega
  rw [read, hindex, if_pos (Int.natCast_nonneg _), hcells, Int.toNat_natCast, List.map_append,
    List.append_assoc]
  simp

/-- The array follows the list, key by key. -/
theorem Holds.addTypename (h : t.Holds names) (hkey : 0 ∉ key) :
    ∃ t', t.addTypename key = some t' ∧ t'.Holds (Indent.addTypename key names) := by
  obtain ⟨hg, hroom⟩ := h.grow
  have htop := hg.top
  unfold Typenames.addTypename Indent.addTypename
  cases hlast : names.getLast? with
  | none =>
    obtain rfl := List.getLast?_eq_none_iff.mp hlast
    rw [List.length_nil] at htop
    rw [if_pos (by omega)]
    exact hg.append hroom hkey
  | some last =>
    have hmem := List.mem_of_getLast? hlast
    have hstr := hg.strings last hmem
    have hpos := List.length_pos_of_mem hmem
    rw [if_neg (by omega), hg.read_top hlast]
    simp only [Option.bind_eq_bind, Option.bind_some]
    by_cases hlt : key < last
    · have hneg : ¬ 0 ≤ strcmp key last := Int.not_le.mpr ((strcmp_neg_iff hstr).mpr hlt)
      obtain ⟨rest, hcells⟩ := hg.cells
      obtain ⟨pre, name, post, rfl, hpre, hname, hfind⟩ :=
        findPlace_map hkey hg.strings hmem (List.lt_asymm hlt) rest
      have hname0 := hg.strings name (by simp)
      rw [if_neg hneg, hcells, hfind, if_pos hlt, insertTypename_append hpre hname]
      simp only [Option.bind_some, strcmp_eq_zero_iff hkey hname0]
      split_ifs with heq
      · exact ⟨_, rfl, hg⟩
      · exact hg.insertAt hroom hkey
    · have hnonneg : 0 ≤ strcmp key last := Int.not_lt.mp (mt (strcmp_neg_iff hstr).mp hlt)
      rw [if_pos hnonneg, if_neg hlt]
      simp only [strcmp_eq_zero_iff hkey hstr]
      split_ifs with heq
      · exact ⟨_, rfl, hg⟩
      · exact hg.append hroom hkey

theorem mapM_id_map_some (names : List (List UInt8)) : (names.map some).mapM id = some names := by
  induction names with
  | nil => rfl
  | cons n names ih =>
    rw [List.map_cons, List.mapM_cons, ih]
    rfl

theorem Holds.names_eq (h : t.Holds names) : t.names = some names := by
  obtain ⟨⟨rest, hcells⟩, htop, -, -⟩ := h
  have hlen : (t.top + 1).toNat = (names.map (some : _ → Option (List UInt8))).length := by
    rw [htop, List.length_map, Int.toNat_natCast]
  rw [Typenames.names, hlen, hcells, List.take_left, mapM_id_map_some]

theorem Holds.find_eq (h : t.Holds names) (hsorted : names.Pairwise (· < ·)) {token : List UInt8}
    (htoken : 0 ∉ token) : t.find token = some (decide (token ∈ names)) := by
  have htop := h.top
  unfold Typenames.find
  cases names with
  | nil =>
    rw [List.length_nil] at htop
    rw [if_neg (by omega)]
    rfl
  | cons n names =>
    have hordered : Ordered (strcmp token) (n :: names) := by
      refine hsorted.imp_of_mem fun {a b} ha hb hab hle => ?_
      have hta : ¬ a < token := fun hlt => Int.not_lt.mpr hle ((strcmp_pos_iff htoken).mpr hlt)
      exact (strcmp_neg_iff (h.strings b hb)).mpr (List.lt_of_le_of_lt hta hab)
    obtain ⟨r, hr, hsome⟩ := bsearch_spec hordered 0 (n :: names).length (Nat.le_of_eq (Nat.zero_add _))
      fun i hi _ => ⟨Nat.zero_le i, by omega⟩
    have hmem : r.isSome = true ↔ token ∈ n :: names := by
      rw [hsome]
      constructor
      · rintro ⟨x, hx, h0⟩
        rwa [(strcmp_eq_zero_iff htoken (h.strings x hx)).mp h0]
      · exact fun hx => ⟨token, hx, strcmp_self token⟩
    rw [List.length_cons] at htop
    rw [if_pos (by omega), h.names_eq, h.top, Int.toNat_natCast]
    simp only [Option.bind_eq_bind, Option.bind_some, hr, Option.pure_def, Option.some.injEq]
    exact Bool.eq_iff_iff.mpr (hmem.trans decide_eq_true_iff.symm)

/-- The table after these calls. -/
def addAll (keys : List CString) : Option Typenames := keys.foldlM (fun t key => t.addTypename key.1) alloc

theorem Holds.foldlM (h : t.Holds names) (keys : List CString) :
    ∃ t', keys.foldlM (fun t key => t.addTypename key.1) t = some t' ∧
      t'.Holds (keys.foldl (fun names key => Indent.addTypename key.1 names) names) := by
  induction keys generalizing t names with
  | nil => exact ⟨t, rfl, h⟩
  | cons key keys ih =>
    obtain ⟨t1, h1, hadd⟩ := h.addTypename key.2
    rw [List.foldlM_cons, h1]
    exact ih hadd

end Typenames

theorem mem_foldl_addTypename (keys : List CString) {name : List UInt8} :
    name ∈ keys.foldl (fun names key => addTypename key.1 names) names ↔
      name ∈ keys.map (·.1) ∨ name ∈ names := by
  induction keys generalizing names with
  | nil => simp
  | cons key keys ih =>
    rw [List.foldl_cons, ih, mem_addTypename, List.map_cons, List.mem_cons]
    tauto

theorem pairwise_foldl_addTypename (keys : List CString) (h : names.Pairwise (· < ·)) :
    (keys.foldl (fun names key => addTypename key.1 names) names).Pairwise (· < ·) := by
  induction keys generalizing names with
  | nil => exact h
  | cons key keys ih => exact ih (pairwise_addTypename h)

/-- The table is a sorted set of the keys, and `lexi` finds its elements and nothing else. -/
theorem typenames_sorted_set (keys : List CString) :
    ∃ t names, Typenames.addAll keys = some t ∧ t.names = some names ∧
      names.Pairwise (fun a b => strcmp a b < 0) ∧ (∀ name, name ∈ names ↔ name ∈ keys.map (·.1)) ∧
      ∀ token : CString, t.find token.1 = some (decide (token.1 ∈ keys.map (·.1))) := by
  obtain ⟨t, hrun, hold⟩ := Typenames.holds_alloc.foldlM keys
  have hsorted : (keys.foldl (fun names key => addTypename key.1 names) []).Pairwise (· < ·) :=
    pairwise_foldl_addTypename keys .nil
  have hmem : ∀ name, name ∈ keys.foldl (fun names key => addTypename key.1 names) [] ↔
      name ∈ keys.map (·.1) := by
    intro name
    rw [mem_foldl_addTypename]
    simp
  refine ⟨t, _, hrun, hold.names_eq, ?_, hmem, fun token => ?_⟩
  · refine hsorted.imp_of_mem fun {a b} _ hb hab => ?_
    exact (strcmp_neg_iff (hold.strings b hb)).mpr hab
  · rw [hold.find_eq hsorted token.2]
    exact congrArg some (decide_eq_decide.mpr (hmem token.1))

end BsdAdditions.Indent
