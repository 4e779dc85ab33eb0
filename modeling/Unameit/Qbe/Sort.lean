import Mathlib.Data.Char
import Mathlib.Data.List.Lex
import Mathlib.Tactic
import Unameit.Lib.SignedCmp
import Unameit.Inet.Basic

/-!
# Qbe.Sort — the comparison of items

`Sort_Items` sorts items by their name attributes with `qsort`.  `compare_uuids` compares two items;
where a name attribute refers to an item it calls itself, and it keeps the results of those
comparisons in a table until the items are sorted.  What it returns is `Interp.order`, whatever is in
the table (`Items.compareUuids_spec`), and that is a total preorder exactly where the wrapped
differences of integers that decide are transitive (`compareUuids_wellOrdered_iff`).
-/

namespace Unameit
namespace Qbe

open Function (update update_self update_of_ne)
open Option List

inductive AttrType
  | string
  | integer
  | object
  | other
  deriving DecidableEq

/-- The Tcl variables that are read, and the library functions that read lists and integers. -/
structure Interp where
  cls : CString → Option CString
  anames : CString → Option CString
  atype : CString → Option AttrType
  value : CString → CString → Option CString
  splitList : CString → Option (List CString)
  getInt : CString → Option ℤ

/-- `comparison_cache`. -/
abbrev Cache := CString → Option ℤ

/-- The values of one attribute are compared; `none` is a jump out of the sort. -/
def compareValues (ip : Interp) (again : Cache → CString → CString → Option (ℤ × Cache))
    (type : AttrType) (a1 a2 : CString) (cache : Cache) : Option (ℤ × Cache) :=
  match type with
  | .string => some (strcmp a1 a2, cache)
  | .integer => do
    let i1 ← ip.getInt a1
    let i2 ← ip.getInt a2
    return (int32 (i1 - i2), cache)
  | .object =>
    if strcmp a1 a2 ≠ 0 ∧ a1 ≠ [] ∧ a2 ≠ [] then
      let key := if 0 < strcmp a1 a2 then a2 ++ a1 else a1 ++ a2
      let turn := fun r => if 0 < strcmp a1 a2 then int32 (-r) else r
      match cache key with
      | some r => some (turn r, cache)
      | none => do
        -- The new entry is there before the items are compared.
        let (r, cache) ← again (update cache key (some 0)) a1 a2
        return (r, update cache key (some (turn r)))
    else some (strcmp a1 a2, cache)
  | .other => some (0, cache)

/-- The loop over the name attributes. -/
def compareAttrs (ip : Interp) (again : Cache → CString → CString → Option (ℤ × Cache))
    (uuid1 uuid2 : CString) : List CString → Cache → Option (ℤ × Cache)
  | [], cache => some (0, cache)
  | a :: argv, cache => do
    let type ← ip.atype a
    let a1 ← ip.value uuid1 a
    let a2 ← ip.value uuid2 a
    let (cmp, cache) ← compareValues ip again type a1 a2 cache
    if cmp ≠ 0 then return (cmp, cache) else compareAttrs ip again uuid1 uuid2 argv cache

def compareUuids (ip : Interp) : ℕ → Cache → CString → CString → Option (ℤ × Cache)
  | 0, _, _, _ => none
  | fuel + 1, cache, uuid1, uuid2 => do
    let c1 ← ip.cls uuid1
    let c2 ← ip.cls uuid2
    let nattrs ← ip.anames c1
    let nattrs2 ← (if c1 = c2 then some nattrs else ip.anames c2)
    if strcmp nattrs nattrs2 ≠ 0 then return (strcmp nattrs nattrs2, cache)
    let argv ← ip.splitList nattrs
    compareAttrs ip (compareUuids ip fuel) uuid1 uuid2 argv cache

/-! ## The order of items -/

namespace Interp

def names (ip : Interp) (u : CString) : CString := ((ip.cls u).bind ip.anames).getD []

def attrs (ip : Interp) (u : CString) : List CString := (ip.splitList (ip.names u)).getD []

def text (ip : Interp) (u a : CString) : CString := (ip.value u a).getD []

def int (ip : Interp) (u a : CString) : ℤ := (ip.getInt (ip.text u a)).getD 0

end Interp

/-- No item comes before items. -/
def refCmp (again : CString → CString → ℤ) (s t : CString) : ℤ :=
  if s = [] ∨ t = [] then strcmp s t else again s t

def Interp.attrCmp (ip : Interp) (again : CString → CString → ℤ) (a u v : CString) : ℤ :=
  match ip.atype a with
  | some .string => strcmp (ip.text u a) (ip.text v a)
  | some .integer => int32 (ip.int u a - ip.int v a)
  | some .object => refCmp again (ip.text u a) (ip.text v a)
  | _ => 0

/-- The lists of name attributes count, then their values.  References are followed `n` times. -/
def Interp.order (ip : Interp) : ℕ → CString → CString → ℤ
  | 0, _, _ => 0
  | n + 1, u, v => thenCmp (strcmp (ip.names u) (ip.names v))
      (((ip.attrs u).map fun a => ip.attrCmp (ip.order n) a u v).foldr thenCmp 0)

section Oriented

variable {c : CString → CString → ℤ} {s t : CString}

lemma strcmp_eq_zero : strcmp s t = 0 ↔ s = t := by
  unfold strcmp
  split_ifs with hlt heq
  · exact iff_of_false (by decide) hlt.ne
  · exact iff_of_true rfl heq
  · exact iff_of_false (by decide) heq

lemma strcmp_neg : strcmp s t < 0 ↔ s < t := by
  unfold strcmp
  split_ifs with hlt heq
  · exact iff_of_true (by decide) hlt
  · exact iff_of_false (by decide) hlt
  · exact iff_of_false (by decide) hlt

lemma oriented_strcmp : Oriented strcmp where
  self s := strcmp_eq_zero.2 rfl
  swap s t := by
    rcases lt_trichotomy s t with h | rfl | h
    · simp [strcmp, h, h.asymm, h.ne', int32]
    · simp [strcmp, int32]
    · simp [strcmp, h, h.asymm, h.ne', int32]
  congr h z := by rw [strcmp_eq_zero.1 h]

lemma strcmp_nil_right (h : s ≠ []) : strcmp s [] = 1 := by
  simp [strcmp, h]

lemma oriented_refCmp (h : Oriented c) : Oriented (refCmp c) where
  self s := by
    unfold refCmp
    split_ifs
    · exact oriented_strcmp.self s
    · exact h.self s
  swap s t := by
    simp only [refCmp, or_comm (a := t = [])]
    split_ifs
    · exact oriented_strcmp.swap s t
    · exact h.swap s t
  congr {s t} hzero z := by
    by_cases hst : s = [] ∨ t = []
    · rw [refCmp, if_pos hst, strcmp_eq_zero] at hzero
      rw [hzero]
    · rw [refCmp, if_neg hst] at hzero
      rw [not_or] at hst
      by_cases hz : z = []
      · simp [refCmp, hz, strcmp_nil_right hst.1, strcmp_nil_right hst.2]
      · simpa [refCmp, hst, hz] using h.congr hzero z

lemma ascending_strcmp (s t u : CString) : Ascending strcmp s t u := by
  intro hst htu
  rw [strcmp_neg] at *
  exact hst.trans htu

/-- References that do not all lead to items are in order as they are. -/
theorem ascending_refCmp {s t u : CString}
    (h : s ≠ [] → t ≠ [] → u ≠ [] → Ascending c s t u) : Ascending (refCmp c) s t u := by
  have hnil : ∀ s, ¬ refCmp c s [] < 0 := fun s => by
    rw [refCmp, if_pos (.inr rfl), strcmp_neg]
    exact List.not_lt_nil s
  intro hst htu
  have ht : t ≠ [] := fun ht => hnil s (ht ▸ hst)
  have hu : u ≠ [] := fun hu => hnil t (hu ▸ htu)
  by_cases hs : s = []
  · rw [refCmp, if_pos (.inl hs), strcmp_neg, hs]
    obtain ⟨c, u, rfl⟩ := exists_cons_of_ne_nil hu
    exact nil_lt_cons c u
  · rw [refCmp, if_neg (by simp [hs, ht])] at hst
    rw [refCmp, if_neg (by simp [ht, hu])] at htu
    rw [refCmp, if_neg (by simp [hs, hu])]
    exact h hs ht hu hst htu

lemma Interp.oriented_attrCmp (ip : Interp) (h : Oriented c) (a : CString) :
    Oriented (ip.attrCmp c a) := by
  unfold Interp.attrCmp
  rcases ip.atype a with _ | _ | _ | _ | _
  · exact ⟨fun _ => rfl, fun _ _ => rfl, fun _ _ => rfl⟩
  · exact oriented_strcmp.on fun u => ip.text u a
  · exact oriented_sub.on fun u => ip.int u a
  · exact (oriented_refCmp h).on fun u => ip.text u a
  · exact ⟨fun _ => rfl, fun _ _ => rfl, fun _ _ => rfl⟩

lemma Interp.attrs_eq {ip : Interp} {u v : CString} (h : strcmp (ip.names u) (ip.names v) = 0) :
    ip.attrs v = ip.attrs u := by
  rw [Interp.attrs, ← strcmp_eq_zero.1 h, Interp.attrs]

lemma Interp.oriented_order (ip : Interp) (n : ℕ) : Oriented (ip.order n) := by
  induction n with
  | zero => exact ⟨fun _ => rfl, fun _ _ => rfl, fun _ _ => rfl⟩
  | succ n ih =>
    have hattrs := fun u => oriented_foldr (ip.oriented_attrCmp ih) (ip.attrs u)
    refine (oriented_strcmp.on ip.names).andThen (fun u v huv => ?_) (fun u => (hattrs u).self u) ?_
    · rw [Interp.attrs_eq huv]
      exact (hattrs u).swap u v
    · intro u v huv hzero z _
      rw [Interp.attrs_eq huv]
      exact (hattrs u).congr hzero z

end Oriented

/-! ## Items -/

/-- The value of a name attribute can be read: if it is not empty, an object is an item further down. -/
def Readable (ip : Interp) (items : CString → Prop) (depth : CString → ℕ) (u a : CString) : Prop :=
  (ip.atype a).isSome ∧ (ip.value u a).isSome ∧
    (ip.atype a = some .integer → (ip.getInt (ip.text u a)).isSome) ∧
    (ip.atype a = some .object → ip.text u a ≠ [] →
      items (ip.text u a) ∧ depth (ip.text u a) < depth u)

/-- The items can be compared, and their references are acyclic. -/
structure Items (ip : Interp) (items : Set CString) (depth : CString → ℕ) : Prop where
  length : ∀ u ∈ items, u.length = 22
  names : ∀ u ∈ items, (ip.cls u).bind ip.anames = some (ip.names u)
  attrs : ∀ u ∈ items, ip.splitList (ip.names u) = some (ip.attrs u)
  readable : ∀ u ∈ items, ∀ a ∈ ip.attrs u, Readable ip (· ∈ items) depth u a

section Order

variable {ip : Interp} {items : Set CString} {depth : CString → ℕ}
  {again : Cache → CString → CString → Option (ℤ × Cache)} {u v : CString} {d : ℕ}

lemma Items.ne_nil (h : Items ip items depth) (hu : u ∈ items) : u ≠ [] := by
  rintro rfl
  simpa using h.length _ hu

/-- Following references further than there are any makes no difference. -/
theorem Items.order_succ (h : Items ip items depth) {n : ℕ} (hu : u ∈ items) (hv : v ∈ items)
    (hn : depth u < n) : ip.order (n + 1) u v = ip.order n u v := by
  induction n generalizing u v with
  | zero => omega
  | succ n ih =>
    rw [Interp.order, Interp.order]
    by_cases hnames : strcmp (ip.names u) (ip.names v) = 0
    · congr 2
      refine map_congr_left fun a ha => ?_
      unfold Interp.attrCmp refCmp
      split
      all_goals try rfl
      next htype =>
        split_ifs with hnil
        · rfl
        · rw [not_or] at hnil
          have hleft := (h.readable u hu a ha).2.2.2 htype hnil.1
          have hright := (h.readable v hv a (Interp.attrs_eq hnames ▸ ha)).2.2.2 htype hnil.2
          exact ih hleft.1 hright.1 (by omega)
    · rw [thenCmp_of_ne hnames, thenCmp_of_ne hnames]

/-! ## The comparison computes the order -/

variable {n : ℕ} {cache cache' cache'' : Cache}

def Sound (ip : Interp) (items : Set CString) (depth : CString → ℕ) (n d : ℕ) (cache : Cache) : Prop :=
  ∀ u ∈ items, ∀ v ∈ items, depth u + depth v < d → ∀ r, cache (u ++ v) = some r →
    r = ip.order n u v

structure Extends (ip : Interp) (items : Set CString) (depth : CString → ℕ) (n d : ℕ)
    (cache cache' : Cache) : Prop where
  sound : Sound ip items depth n d cache'
  same : ∀ u ∈ items, ∀ v ∈ items, d ≤ depth u + depth v → cache' (u ++ v) = cache (u ++ v)

def Decides (ip : Interp) (items : Set CString) (depth : CString → ℕ) (n : ℕ)
    (cmp : Cache → CString → CString → Option (ℤ × Cache)) (u v : CString) : Prop :=
  ∀ {cache}, Sound ip items depth n (depth u + depth v) cache →
    ∃ cache', cmp cache u v = some (ip.order n u v, cache') ∧
      Extends ip items depth n (depth u + depth v) cache cache'

lemma Items.key_inj (h : Items ip items depth) {u' v' : CString} (hu : u ∈ items)
    (hu' : u' ∈ items) (heq : u' ++ v' = u ++ v) : u' = u ∧ v' = v :=
  append_inj heq (by rw [h.length u' hu', h.length u hu])

/-- A result is looked up under the key for a pair, or found and stored there. -/
theorem Items.lookup (h : Items ip items depth) {w z : CString} (turn : ℤ → ℤ) (hu : u ∈ items)
    (hv : v ∈ items) (hsum : depth w + depth z = depth u + depth v) (hd : depth u + depth v < d)
    (hold : Sound ip items depth n d cache) (hturn : turn (ip.order n u v) = ip.order n w z)
    (hback : turn (ip.order n w z) = ip.order n u v) (hagain : Decides ip items depth n again w z) :
    ∃ cache', (match cache (u ++ v) with
        | some r => some (turn r, cache)
        | none => do
          let (r, cache) ← again (update cache (u ++ v) (some 0)) w z
          return (r, update cache (u ++ v) (some (turn r)))) = some (ip.order n w z, cache') ∧
      Extends ip items depth n d cache cache' := by
  cases hit : cache (u ++ v) with
  | some r => exact ⟨cache, by simp [hold u hu v hv hd r hit, hturn], hold, fun _ _ _ _ _ => rfl⟩
  | none =>
    -- The new entry is not looked at by the comparison that it is for.
    have hother : ∀ {u'}, u' ∈ items → ∀ v', depth u' + depth v' ≠ depth u + depth v →
        u' ++ v' ≠ u ++ v := by
      intro u' hu' v' hne heq
      obtain ⟨rfl, rfl⟩ := h.key_inj hu hu' heq
      exact hne rfl
    have hstart : Sound ip items depth n (depth w + depth z)
        (update cache (u ++ v) (some 0)) := by
      intro u' hu' v' hv' hlt r hr
      rw [update_of_ne (hother hu' v' (by omega))] at hr
      exact hold u' hu' v' hv' (by omega) r hr
    rcases hagain hstart with ⟨cache', hcmp, hnew⟩
    refine ⟨update cache' (u ++ v) (some (ip.order n u v)), by simp [hcmp, hback], ?_, ?_⟩
    · intro u' hu' v' hv' hlt r' hr'
      by_cases heq : u' ++ v' = u ++ v
      · rw [heq, update_self] at hr'
        obtain ⟨rfl, rfl⟩ := h.key_inj hu hu' heq
        exact (some.inj hr').symm
      · rw [update_of_ne heq] at hr'
        by_cases hle : depth w + depth z ≤ depth u' + depth v'
        · rw [hnew.same u' hu' v' hv' hle, update_of_ne heq] at hr'
          exact hold u' hu' v' hv' hlt r' hr'
        · exact hnew.sound u' hu' v' hv' (by omega) r' hr'
    · intro u' hu' v' hv' hle
      have heq := hother hu' v' (by omega)
      rw [update_of_ne heq, hnew.same u' hu' v' hv' (by omega), update_of_ne heq]

lemma Items.compareValues_object (h : Items ip items depth) {a1 a2 : CString}
    (h1 : a1 ≠ [] → a1 ∈ items) (h2 : a2 ≠ [] → a2 ∈ items)
    (hd : a1 ≠ [] → a2 ≠ [] → depth a1 + depth a2 < d) (hold : Sound ip items depth n d cache)
    (hagain : a1 ∈ items → a2 ∈ items → Decides ip items depth n again a1 a2) :
    ∃ cache', compareValues ip again .object a1 a2 cache =
        some (refCmp (ip.order n) a1 a2, cache') ∧ Extends ip items depth n d cache cache' := by
  by_cases hne : strcmp a1 a2 ≠ 0 ∧ a1 ≠ [] ∧ a2 ≠ []
  · have hm1 := h1 hne.2.1
    have hm2 := h2 hne.2.2
    have hd := hd hne.2.1 hne.2.2
    have hturn := (ip.oriented_order n).swap
    rw [compareValues, if_pos hne, refCmp, if_neg (not_or.2 hne.2)]
    by_cases hpos : 0 < strcmp a1 a2
    · simp only [hpos, if_true]
      exact h.lookup (fun r => int32 (-r)) hm2 hm1 (add_comm ..) (by omega) hold
        (hturn a2 a1).symm (hturn a1 a2).symm (hagain hm1 hm2)
    · simp only [hpos, if_false]
      exact h.lookup (fun r => r) hm1 hm2 rfl hd hold rfl rfl (hagain hm1 hm2)
  · refine ⟨cache, ?_, hold, fun _ _ _ _ _ => rfl⟩
    rw [compareValues, if_neg hne, refCmp]
    split_ifs with hnil
    · rfl
    · have hzero : strcmp a1 a2 = 0 := by simpa [not_or.1 hnil] using hne
      rw [hzero, strcmp_eq_zero.1 hzero, (ip.oriented_order n).self]

lemma Items.compareValues_spec (h : Items ip items depth) {a : CString} (hu : u ∈ items)
    (hv : v ∈ items) (hau : a ∈ ip.attrs u) (hav : a ∈ ip.attrs v)
    (hold : Sound ip items depth n (depth u + depth v) cache)
    (hagain : ∀ w ∈ items, ∀ z ∈ items, depth w < depth u → Decides ip items depth n again w z) :
    ∃ type a1 a2 cache', ip.atype a = some type ∧ ip.value u a = some a1 ∧
      ip.value v a = some a2 ∧
      compareValues ip again type a1 a2 cache = some (ip.attrCmp (ip.order n) a u v, cache') ∧
      Extends ip items depth n (depth u + depth v) cache cache' := by
  have hsame : Extends ip items depth n (depth u + depth v) cache cache :=
    ⟨hold, fun _ _ _ _ _ => rfl⟩
  obtain ⟨htype, hvalue, hint, hobj⟩ := h.readable u hu a hau
  obtain ⟨-, hvalue', hint', hobj'⟩ := h.readable v hv a hav
  obtain ⟨type, htype⟩ := isSome_iff_exists.1 htype
  obtain ⟨a1, ha1⟩ := isSome_iff_exists.1 hvalue
  obtain ⟨a2, ha2⟩ := isSome_iff_exists.1 hvalue'
  refine ⟨type, a1, a2, ?_⟩
  simp only [htype, ha1, ha2, true_and, Interp.attrCmp, Interp.int, Interp.text, getD_some,
    some.injEq] at hint hint' hobj hobj' ⊢
  cases type with
  | string => exact ⟨_, rfl, hsame⟩
  | integer =>
    obtain ⟨i, hget1⟩ := isSome_iff_exists.1 (hint rfl)
    obtain ⟨j, hget2⟩ := isSome_iff_exists.1 (hint' rfl)
    exact ⟨cache, by simp [compareValues, hget1, hget2], hsame⟩
  | object =>
    exact h.compareValues_object (fun hne => (hobj rfl hne).1) (fun hne => (hobj' rfl hne).1)
      (fun hne1 hne2 => Nat.add_lt_add (hobj rfl hne1).2 (hobj' rfl hne2).2) hold
      fun hm1 hm2 => hagain a1 hm1 a2 hm2 (hobj rfl (h.ne_nil hm1)).2
  | other => exact ⟨cache, rfl, hsame⟩

lemma Items.compareAttrs_spec (h : Items ip items depth) (hu : u ∈ items) (hv : v ∈ items)
    (hagain : ∀ w ∈ items, ∀ z ∈ items, depth w < depth u → Decides ip items depth n again w z)
    (l : List CString) (hl : ∀ a ∈ l, a ∈ ip.attrs u ∧ a ∈ ip.attrs v)
    (hold : Sound ip items depth n (depth u + depth v) cache) :
    ∃ cache', compareAttrs ip again u v l cache =
        some ((l.map fun a => ip.attrCmp (ip.order n) a u v).foldr thenCmp 0, cache') ∧
      Extends ip items depth n (depth u + depth v) cache cache' := by
  induction l generalizing cache with
  | nil => exact ⟨cache, rfl, hold, fun _ _ _ _ _ => rfl⟩
  | cons a l ih =>
    rcases hl a (by simp) with ⟨hau, hav⟩
    rcases h.compareValues_spec hu hv hau hav hold hagain with
      ⟨type, a1, a2, cache', htype, ha1, ha2, hcmp, hext⟩
    rw [List.map_cons, List.foldr_cons]
    by_cases hzero : ip.attrCmp (ip.order n) a u v = 0
    · rcases ih (fun b hb => hl b (by simp [hb])) hext.sound with ⟨cache'', hrest, hext'⟩
      refine ⟨cache'', by simp [compareAttrs, htype, ha1, ha2, hcmp, hzero, hrest], hext'.sound,
        fun w hw z hz hle => ?_⟩
      rw [hext'.same w hw z hz hle, hext.same w hw z hz hle]
    · refine ⟨cache', ?_, hext⟩
      simp [compareAttrs, htype, ha1, ha2, hcmp, hzero, thenCmp_of_ne hzero]

/-- Whatever has been compared before, the result is the order. -/
theorem Items.compareUuids_spec (h : Items ip items depth) (hn : ∀ u ∈ items, depth u < n) {fuel : ℕ}
    (hu : u ∈ items) (hv : v ∈ items) (hfuel : depth u < fuel) :
    Decides ip items depth n (compareUuids ip fuel) u v := by
  induction fuel generalizing u v with
  | zero => omega
  | succ fuel ih =>
    intro cache hold
    rcases bind_eq_some_iff.1 (h.names u hu) with ⟨c1, hc1, hn1⟩
    rcases bind_eq_some_iff.1 (h.names v hv) with ⟨c2, hc2, hn2⟩
    have hnattrs2 : (if c1 = c2 then some (ip.names u) else ip.anames c2) = some (ip.names v) := by
      split_ifs with hc
      · rw [← hn1, hc, hn2]
      · exact hn2
    rw [← h.order_succ hu hv (hn u hu), Interp.order]
    by_cases hzero : strcmp (ip.names u) (ip.names v) = 0
    · rcases h.compareAttrs_spec hu hv (fun w hw z hz hlt => ih hw hz (by omega)) (ip.attrs u)
        (by simp [Interp.attrs_eq hzero]) hold with ⟨cache', hcmp, hext⟩
      refine ⟨cache', ?_, hext⟩
      simp only [compareUuids, hc1, hc2, hn1, hnattrs2, bind_eq_bind, bind_some]
      simp [hzero, h.attrs u hu, hcmp]
    · refine ⟨cache, ?_, hold, fun _ _ _ _ _ => rfl⟩
      simp only [compareUuids, hc1, hc2, hn1, hnattrs2, bind_eq_bind, bind_some]
      rw [thenCmp_of_ne hzero]
      exact if_pos hzero

end Order

/-! ## Sorting -/

/-- The tables that can have been built by comparisons of items. -/
inductive Reachable (ip : Interp) (S : Set CString) (fuel : ℕ) : Cache → Prop
  | empty : Reachable ip S fuel fun _ => none
  | compared {cache cache' : Cache} {u v : CString} {r : ℤ} : Reachable ip S fuel cache →
      u ∈ S → v ∈ S → compareUuids ip fuel cache u v = some (r, cache') →
      Reachable ip S fuel cache'

/-- The comparison is a total preorder of the items, whatever has been compared before. -/
def WellOrdered (ip : Interp) (S : Set CString) (fuel : ℕ) : Prop :=
  ∃ f, TotalPreorder S f ∧ ∀ {cache}, Reachable ip S fuel cache → ∀ u ∈ S, ∀ v ∈ S,
    ∃ r cache', compareUuids ip fuel cache u v = some (r, cache') ∧ r.sign = (f u v).sign

/-- The name attribute `a` in place `k` is compared if the ones before it are equal. -/
def Reach (ip : Interp) (n : ℕ) (u v : CString) (k : ℕ) (a : CString) : Prop :=
  strcmp (ip.names u) (ip.names v) = 0 ∧ (ip.attrs u)[k]? = some a ∧
    ∀ b ∈ (ip.attrs u).take k, ip.attrCmp (ip.order n) b u v = 0

/-- `path` leads to the integers `i` and `j` that are subtracted, through references to items and
past name attributes that are equal. -/
inductive Meet (ip : Interp) : ℕ → List ℕ → CString → CString → ℤ → ℤ → Prop
  | int {n k : ℕ} {u v a : CString} : Reach ip n u v k a → ip.atype a = some .integer →
      Meet ip (n + 1) [k] u v (ip.int u a) (ip.int v a)
  | ref {n k : ℕ} {path : List ℕ} {u v a : CString} {i j : ℤ} : Reach ip n u v k a →
      ip.atype a = some .object → ip.text u a ≠ [] → ip.text v a ≠ [] →
      Meet ip n path (ip.text u a) (ip.text v a) i j → Meet ip (n + 1) (k :: path) u v i j

/-- The wrapped differences are transitive where they decide.  For `w = u` this says that no two
integers that meet are `2 ^ 31` apart. -/
def Consistent (ip : Interp) (S : Set CString) (n : ℕ) : Prop :=
  ∀ u ∈ S, ∀ v ∈ S, ∀ w ∈ S, ∀ path i j k, Meet ip n path u v i j → Meet ip n path v w j k →
    int32 (i - j) < 0 → int32 (j - k) < 0 → int32 (i - k) < 0

section Meet

variable {ip : Interp} {n : ℕ} {path : List ℕ} {u v w : CString} {i j k : ℤ}

lemma Reach.order_eq {p : ℕ} {a : CString} (h : Reach ip n u v p a)
    (hne : ip.attrCmp (ip.order n) a u v ≠ 0) :
    ip.order (n + 1) u v = ip.attrCmp (ip.order n) a u v := by
  rw [Interp.order, h.1, thenCmp_zero, foldr_thenCmp_of_tied h.2.1 h.2.2 hne]

lemma Reach.trans {p : ℕ} {a b : CString} (h : Reach ip n u v p a) (h' : Reach ip n v w p b) :
    b = a ∧ Reach ip n u w p a := by
  obtain ⟨hnames, ha, htied⟩ := h
  obtain ⟨hnames', hb, htied'⟩ := h'
  rw [Interp.attrs_eq hnames] at hb htied'
  refine ⟨some.inj (hb.symm.trans ha), ?_, ha, fun c hc => ?_⟩
  · rwa [strcmp_eq_zero.1 hnames]
  · rw [(ip.oriented_attrCmp (ip.oriented_order n) c).congr (htied c hc), htied' c hc]

/-- A difference that is not zero decides. -/
theorem Meet.order_eq (h : Meet ip n path u v i j) (hne : int32 (i - j) ≠ 0) :
    ip.order n u v = int32 (i - j) := by
  induction h with
  | @int n k u v a hreach htype =>
    have hcmp : ip.attrCmp (ip.order n) a u v = int32 (ip.int u a - ip.int v a) := by
      rw [Interp.attrCmp, htype]
    rw [hreach.order_eq (by rwa [hcmp]), hcmp]
  | @ref n k path u v a i j hreach htype hu hv _ ih =>
    have hcmp : ip.attrCmp (ip.order n) a u v = int32 (i - j) := by
      rw [Interp.attrCmp, htype]
      exact (if_neg (not_or.2 ⟨hu, hv⟩)).trans (ih hne)
    rw [hreach.order_eq (by rwa [hcmp]), hcmp]

lemma Meet.trans {j' : ℤ} (h : Meet ip n path u v i j) (h' : Meet ip n path v w j' k) :
    Meet ip n path u w i k := by
  induction h generalizing w k with
  | int hreach htype =>
    cases h' with
    | int hreach' htype' =>
      obtain ⟨rfl, hreach⟩ := hreach.trans hreach'
      exact .int hreach htype
    | ref hreach' htype' =>
      rw [(hreach.trans hreach').1, htype] at htype'
      cases htype'
  | ref hreach htype hu _ _ ih =>
    cases h' with
    | int hreach' htype' =>
      rw [(hreach.trans hreach').1, htype] at htype'
      cases htype'
    | ref hreach' htype' hv hw hmeet =>
      obtain ⟨rfl, hreach⟩ := hreach.trans hreach'
      exact .ref hreach htype hu hw (ih hmeet)

/-- Three items are in order if the integers that decide are. -/
theorem ascending_order (h : ∀ path i j k, Meet ip n path u v i j → Meet ip n path v w j k →
      int32 (i - j) < 0 → int32 (j - k) < 0 → int32 (i - k) < 0) :
    Ascending (ip.order n) u v w := by
  induction n generalizing u v w with
  | zero => exact fun hlt => absurd hlt (lt_irrefl 0)
  | succ n ih =>
    refine (oriented_strcmp.on ip.names).ascending_andThen
      (ascending_strcmp (ip.names u) (ip.names v) (ip.names w)) fun huv hvw => ?_
    have hattrs := Interp.attrs_eq huv
    simp only [Ascending, hattrs]
    refine ascending_foldr (ip.oriented_attrCmp (ip.oriented_order n)) fun p a ha htied => ?_
    have hreach : Reach ip n u v p a := ⟨huv, ha, fun b hb => (htied b hb).1⟩
    have hreach' : Reach ip n v w p a :=
      ⟨hvw, hattrs ▸ ha, hattrs ▸ fun b hb => (htied b hb).2⟩
    unfold Interp.attrCmp
    split
    next => exact ascending_strcmp (ip.text u a) (ip.text v a) (ip.text w a)
    next htype => exact h [p] _ _ _ (.int hreach htype) (.int hreach' htype)
    next htype =>
      refine ascending_refCmp (s := ip.text u a) (t := ip.text v a) fun hu hv hw => ih ?_
      exact fun path i j k hm hm' =>
        h (p :: path) i j k (.ref hreach htype hu hv hm) (.ref hreach' htype hv hw hm')
    next => exact fun hlt => absurd hlt (lt_irrefl 0)

lemma consistent_iff {S : Set CString} : Consistent ip S n ↔ TotalPreorder S (ip.order n) := by
  have hor := ip.oriented_order n
  rw [hor.totalPreorder_iff]
  constructor
  · exact fun h u hu v hv w hw => ascending_order (h u hu v hv w hw)
  · intro h u hu v hv w hw path i j k hm hm' hij hjk
    have huv : ip.order n u v < 0 := by rwa [hm.order_eq hij.ne]
    have hvw : ip.order n v w < 0 := by rwa [hm'.order_eq hjk.ne]
    have huw := h u hu v hv w hw huv hvw
    by_cases hik : int32 (i - k) = 0
    · -- then `v` comes before and after `u`
      have hvu : ip.order n v u < 0 := by
        rw [hor.swap u v, hm.order_eq hij.ne, ← oriented_sub.swap i j, oriented_sub.congr_right hik]
        exact hjk
      exact absurd (h u hu v hv u hu huv hvu) (by simp [hor.self u])
    · rwa [← (hm.trans hm').order_eq hik]

end Meet

section Sorting

variable {ip : Interp} {items S : Set CString} {depth : CString → ℕ} {n : ℕ}

lemma Items.sound_of_reachable (h : Items ip items depth) (hn : ∀ u ∈ items, depth u < n)
    (hS : S ⊆ items) {cache : Cache} (hreach : Reachable ip S n cache) (d : ℕ) :
    Sound ip items depth n d cache := by
  induction hreach generalizing d with
  | empty => exact fun u _ v _ _ r hr => nomatch hr
  | @compared cache cache' u v r _ hu hv hcmp ih =>
    rcases h.compareUuids_spec hn (hS hu) (hS hv) (hn u (hS hu)) (ih _) with ⟨cache'', hcmp', hext⟩
    obtain rfl : cache'' = cache' := by
      rw [hcmp] at hcmp'
      cases hcmp'
      rfl
    intro w hw z hz hlt r hr
    by_cases hdeep : depth u + depth v ≤ depth w + depth z
    · rw [hext.same w hw z hz hdeep] at hr
      exact ih d w hw z hz hlt r hr
    · exact hext.sound w hw z hz (by omega) r hr

lemma Items.compareUuids_eq (h : Items ip items depth) (hn : ∀ u ∈ items, depth u < n)
    (hS : S ⊆ items) {cache : Cache} (hreach : Reachable ip S n cache) {u v : CString} (hu : u ∈ S)
    (hv : v ∈ S) : ∃ cache', compareUuids ip n cache u v = some (ip.order n u v, cache') := by
  rcases h.compareUuids_spec hn (hS hu) (hS hv) (hn u (hS hu))
    (h.sound_of_reachable hn hS hreach _) with ⟨cache', hcmp, -⟩
  exact ⟨cache', hcmp⟩

/-- The comparison is a total preorder of items if and only if the wrapped differences of the integers
that are compared, where nothing before them decides, are transitive. -/
theorem compareUuids_wellOrdered_iff (h : Items ip items depth) (hn : ∀ u ∈ items, depth u < n)
    (hS : S ⊆ items) : WellOrdered ip S n ↔ Consistent ip S n := by
  rw [consistent_iff]
  constructor
  · rintro ⟨f, hf, hall⟩
    refine hf.congr_sign fun u hu v hv => ?_
    rcases hall .empty u hu v hv with ⟨r, cache', hcmp, hr⟩
    rcases h.compareUuids_eq hn hS .empty hu hv with ⟨cache'', hcmp'⟩
    rw [hcmp] at hcmp'
    cases hcmp'
    exact hr.symm
  · intro hord
    refine ⟨ip.order n, hord, fun hreach u hu v hv => ?_⟩
    rcases h.compareUuids_eq hn hS hreach hu hv with ⟨cache', hcmp⟩
    exact ⟨_, cache', hcmp, rfl⟩

end Sorting

section Hosts

def host (k : Fin 2) : CString := replicate 22 (if k = 0 then 'a' else 'b')

def site (k : Fin 2) : CString := replicate 22 (if k = 0 then 'c' else 'd')

/-- Two cells, and two hosts with the numbers 0 and `-2 ^ 31`: one in the first cell and one in the
cell `k`. -/
def hosts (k : Fin 2) : Interp where
  cls u := [(host 0, "host".toList), (host 1, "host".toList), (site 0, "cell".toList),
    (site 1, "cell".toList)].lookup u
  anames c := [("host".toList, "cell number".toList), ("cell".toList, "name".toList)].lookup c
  atype a := [("cell".toList, AttrType.object), ("number".toList, .integer),
    ("name".toList, .string)].lookup a
  value u a := [((host 0, "cell".toList), site 0), ((host 0, "number".toList), "0".toList),
    ((host 1, "cell".toList), site k), ((host 1, "number".toList), "-2147483648".toList),
    ((site 0, "name".toList), "east".toList), ((site 1, "name".toList), "west".toList)].lookup (u, a)
  splitList s := [("cell number".toList, ["cell".toList, "number".toList]),
    ("name".toList, ["name".toList])].lookup s
  getInt s := [("0".toList, 0), ("-2147483648".toList, -2 ^ 31)].lookup s

def hostItems : List CString := [host 0, host 1, site 0, site 1]

def hostDepth (u : CString) : ℕ := if u = host 0 ∨ u = host 1 then 1 else 0

/-- What the tables of the hosts say about their items: names and attributes, and the order. -/
theorem hosts_tables :
    (∀ k, ∀ u ∈ hostItems,
      ((hosts k).cls u).bind (hosts k).anames = some ((hosts k).names u) ∧
        (hosts k).splitList ((hosts k).names u) = some ((hosts k).attrs u) ∧
        ∀ a ∈ (hosts k).attrs u, Readable (hosts k) (· ∈ hostItems) hostDepth u a) ∧
    (∀ u ∈ hostItems, ∀ v ∈ hostItems,
      ((hosts 1).order 2 v u).sign = -((hosts 1).order 2 u v).sign) ∧
    (∀ u ∈ hostItems, ∀ v ∈ hostItems, ∀ w ∈ hostItems, (hosts 1).order 2 u v ≤ 0 →
      (hosts 1).order 2 v w ≤ 0 → (hosts 1).order 2 u w ≤ 0) ∧
    (compareUuids (hosts 0) 2 (fun _ => none) (host 0) (host 1)).map Prod.fst = some (-2 ^ 31) ∧
    (compareUuids (hosts 0) 2 (fun _ => none) (host 1) (host 0)).map Prod.fst = some (-2 ^ 31) := by
  unfold Readable
  decide +kernel

lemma hosts_items (k : Fin 2) : Items (hosts k) {u | u ∈ hostItems} hostDepth := by
  have hlength : ∀ u ∈ hostItems, u.length = 22 := by decide
  have hnames := hosts_tables.1 k
  exact ⟨hlength, fun u hu => (hnames u hu).1, fun u hu => (hnames u hu).2.1,
    fun u hu => (hnames u hu).2.2⟩

lemma hostDepth_lt : ∀ u ∈ hostItems, hostDepth u < 2 := by
  decide

/-- In different cells the hosts are in order by their cells, although their numbers are not. -/
theorem compareUuids_wellOrdered_hosts : WellOrdered (hosts 1) {u | u ∈ hostItems} 2 := by
  obtain ⟨-, hopposite, htrans, -⟩ := hosts_tables
  refine (compareUuids_wellOrdered_iff (hosts_items 1) hostDepth_lt subset_rfl).2 ?_
  exact consistent_iff.2 ⟨hopposite, htrans⟩

/-- In one cell each of the two hosts comes before the other. -/
theorem not_wellOrdered_hosts : ¬ WellOrdered (hosts 0) {u | u ∈ hostItems} 2 := by
  obtain ⟨-, -, -, hcmp⟩ := hosts_tables
  rintro ⟨f, hf, hall⟩
  rcases hall .empty (host 0) (by decide) (host 1) (by decide) with ⟨r, _, hr, hab⟩
  rcases hall .empty (host 1) (by decide) (host 0) (by decide) with ⟨r', _, hr', hba⟩
  have hopposite := hf.opposite (host 0) (by decide) (host 1) (by decide)
  simp only [hr, hr', map_some, some.injEq] at hcmp
  rw [← hab, ← hba, hcmp.1, hcmp.2] at hopposite
  exact absurd hopposite (by decide)

end Hosts

end Qbe
end Unameit
