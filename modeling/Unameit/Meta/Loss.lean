import Mathlib.Data.Option.Basic
import Unameit.Lib.Loops
import Unameit.Meta.Basic

/-!
# Meta.Loss — which schema changes may lose data

A column of a class is dropped by looking at the class and at the defining attribute as they were.
The check for deleted attributes leaves the work to the defining class when an attribute is gone,
and goes by the class that the attribute belongs to in the new schema when it is not.  So a column
escapes the checks when its attribute is deleted together with the class that defines it, and when
the attribute moves to another class from which the class inherits it now (`Asked`).  Stored empty
sets escape all checks that ask for an attribute (`Covered`).
-/

namespace Unameit
namespace Meta

open Option List

variable {cls attr d : Uuid} {q : Query} {anames : List CString} {aname aname' : CString}
  {x : Except SchemaError Domains} {ds domains : Domains}

variable {old new : Schema} {db : Db}

/-! ## Queries -/

lemma checkNoInstances_iff :
    unameitCheckNoInstances old db cls q anames = true ↔
      ∀ i ∈ db, q.finds old cls anames i = false := by
  simp [unameitCheckNoInstances]

lemma not_checkNoInstances_iff :
    ¬ unameitCheckNoInstances old db cls q anames = true ↔
      ∃ i ∈ db, q.finds old cls anames i = true := by
  simp [unameitCheckNoInstances]

lemma finds_column_iff {i : Instance} :
    Query.finds old { all := false, deleted := true } cls [aname] i = true ↔
      i.cls = cls ∧ i.differs old aname = true := by
  simp [Query.finds]

lemma hasData_iff :
    hasData old db cls aname = true ↔ ∃ i ∈ db, i.cls = cls ∧ i.differs old aname = true := by
  simp [hasData, unameitCheckNoInstances, Query.finds]

lemma differs_of_scalar {i : Instance} (h : old.multiplicity aname = .scalar) :
    i.differs old aname = (i.value aname).isSome := by
  rw [Instance.differs, h]

lemma mem_intersect3 {a b : List Uuid} {x : Uuid} :
    (x ∈ (intersect3 a b).1 ↔ x ∈ a ∧ x ∉ b) ∧ (x ∈ (intersect3 a b).2.1 ↔ x ∈ a ∧ x ∈ b) := by
  simp [intersect3]

/-! ## The pass over the domains -/

section Domains

variable {hd : Uuid → CString → Bool}

/-- No column that has a new domain in place of an old one has values. -/
def Domains.Tame (old : Schema) (hd : Uuid → CString → Bool) (domains : Domains) : Prop :=
  ∀ k ∈ domains.new.map Prod.fst,
    old.pointerDomain k.1 k.2 = none ∨ hd k.1 (old.attributeName k.2) = false

/-- Values matter to the pass only in the columns that get a new domain: from `ds` it comes to `x`
with the values and to `y` without, and `x` is a success exactly when `y` is one and the columns
have no values. -/
structure SameUnlessData (old : Schema) (hd : Uuid → CString → Bool) (ds : Domains)
    (x y : Except SchemaError Domains) : Prop where
  grows : ∀ ds', y = .ok ds' → ds.new.map Prod.fst ⊆ ds'.new.map Prod.fst
  iff_tame : ds.Tame old hd → ∀ ds', x = .ok ds' ↔ y = .ok ds' ∧ ds'.Tame old hd

lemma SameUnlessData.ok {ds' : Domains} (hnew : ds'.new = ds.new) :
    SameUnlessData old hd ds (.ok ds') (.ok ds') where
  grows := by
    rintro ds'' h
    obtain rfl := Except.ok.inj h
    rw [hnew]
    exact List.Subset.refl _
  iff_tame := by
    intro hds ds''
    refine ⟨fun h => ⟨h, ?_⟩, fun h => h.1⟩
    obtain rfl := Except.ok.inj h
    rwa [Domains.Tame, hnew]

lemma SameUnlessData.error (e e' : SchemaError) :
    SameUnlessData old hd ds (.error e) (.error e') where
  grows := by
    rintro ds' h
    cases h
  iff_tame := by
    intro _ ds'
    constructor
    · intro h
      cases h
    · rintro ⟨h, -⟩
      cases h

lemma SameUnlessData.cons {k : Uuid × Uuid} {computed} {domain : Option Uuid}
    (hx : x = .ok { computed := computed, new := (k, domain) :: ds.new } ∧
        (old.pointerDomain k.1 k.2 = none ∨ hd k.1 (old.attributeName k.2) = false) ∨
      (∃ e, x = .error e) ∧
        ¬ (old.pointerDomain k.1 k.2 = none ∨ hd k.1 (old.attributeName k.2) = false)) :
    SameUnlessData old hd ds x (.ok { computed := computed, new := (k, domain) :: ds.new }) where
  grows := by
    intro ds' h
    obtain rfl := Except.ok.inj h
    exact subset_cons_self ..
  iff_tame := by
    intro hds ds'
    rcases hx with ⟨rfl, hk⟩ | ⟨⟨e, rfl⟩, hk⟩
    · refine ⟨fun h => ⟨h, ?_⟩, fun h => h.1⟩
      obtain rfl := Except.ok.inj h
      exact forall_mem_cons.2 ⟨hk, hds⟩
    · constructor
      · intro h
        cases h
      · rintro ⟨h, htame⟩
        obtain rfl := Except.ok.inj h
        exact absurd (htame k mem_cons_self) hk

lemma sameUnlessData_checkDomainChange (cls attr : Uuid) (domain : Option Uuid) (ds : Domains) :
    SameUnlessData old hd ds (unameitCheckDomainChange old hd cls attr domain ds)
      (unameitCheckDomainChange old (fun _ _ => false) cls attr domain ds) := by
  unfold unameitCheckDomainChange
  cases hold : old.pointerDomain cls attr with
  | none => exact .cons (.inl ⟨rfl, .inl hold⟩)
  | some oldDomain =>
    simp only [Bool.false_eq_true, if_false]
    split_ifs with hdom hdata
    · exact .ok rfl
    · exact .cons (.inr ⟨⟨_, rfl⟩, by simp [hold, hdata]⟩)
    · exact .cons (.inl ⟨rfl, .inr (by simpa using hdata)⟩)

lemma sameUnlessData_checkAttributeDomain (cls attr : Uuid) (item : AttributeItem)
    (domain : Option Uuid) (ds : Domains) :
    SameUnlessData old hd ds (unameitCheckAttributeDomain old new hd cls attr item domain ds)
      (unameitCheckAttributeDomain old new (fun _ _ => false) cls attr item domain ds) := by
  unfold unameitCheckAttributeDomain
  dsimp only
  -- only the calls of the check of one column look at values
  generalize (if cls = item.cls then domain else none) = given
  split
  · exact .error _ _
  · split_ifs
    · exact sameUnlessData_checkDomainChange ..
    · cases given with
      | some own =>
        dsimp only
        split
        · exact .error _ _
        · exact sameUnlessData_checkDomainChange ..
      | none =>
        cases unameitComputeAttributeDomain new cls _ _ ds with
        | error e => exact .error _ _
        | ok domain => exact sameUnlessData_checkDomainChange ..

lemma sameUnlessData_checkPointerDomain (column : Uuid × Uuid) (ds : Domains) :
    SameUnlessData old hd ds (checkPointerDomain old new hd ds column)
      (checkPointerDomain old new (fun _ _ => false) ds column) := by
  unfold checkPointerDomain
  split
  · split
    · exact sameUnlessData_checkAttributeDomain ..
    · exact .ok rfl
  · exact .ok rfl

lemma SameUnlessData.bind {y : Except SchemaError Domains}
    {f g : Domains → Except SchemaError Domains} (h : SameUnlessData old hd ds x y)
    (hfg : ∀ ds', SameUnlessData old hd ds' (f ds') (g ds')) :
    SameUnlessData old hd ds (x >>= f) (y >>= g) where
  grows := by
    intro ds'' hy
    obtain ⟨ds', hy, hg⟩ := bind_eq_ok_iff.1 hy
    exact List.Subset.trans (h.grows ds' hy) ((hfg ds').grows ds'' hg)
  iff_tame := by
    intro hds ds''
    rw [bind_eq_ok_iff, bind_eq_ok_iff]
    constructor
    · rintro ⟨ds', hx, hf⟩
      obtain ⟨hy, hds'⟩ := (h.iff_tame hds ds').1 hx
      obtain ⟨hg, hds''⟩ := ((hfg ds').iff_tame hds' ds'').1 hf
      exact ⟨⟨ds', hy, hg⟩, hds''⟩
    · rintro ⟨⟨ds', hy, hg⟩, hds''⟩
      -- the columns that are tame at the end include those that were changed before
      have hds' : ds'.Tame old hd := fun k hk => hds'' k ((hfg ds').grows ds'' hg hk)
      exact ⟨ds', (h.iff_tame hds ds').2 ⟨hy, hds'⟩, ((hfg ds').iff_tame hds' ds'').2 ⟨hg, hds''⟩⟩

/-- The whole pass, by induction on the columns. -/
theorem sameUnlessData_foldlM (columns : List (Uuid × Uuid)) (ds : Domains) :
    SameUnlessData old hd ds (columns.foldlM (checkPointerDomain old new hd) ds)
      (columns.foldlM (checkPointerDomain old new fun _ _ => false) ds) := by
  induction columns generalizing ds with
  | nil => exact .ok rfl
  | cons column columns ih =>
    exact (sameUnlessData_checkPointerDomain column ds).bind ih

/-- The pass comes to the domains that the schemas ask for, unless one of them would lose data. -/
theorem checkPointerDomains_eq_ok_iff :
    unameitCheckPointerDomains old new hd = .ok ds ↔
      unameitCheckPointerDomains old new (fun _ _ => false) = .ok ds ∧ ds.Tame old hd := by
  refine (sameUnlessData_foldlM new.columns _).iff_tame ?_ ds
  intro k hk
  cases hk

end Domains

/-! ## Validation -/

structure Passes (old new : Schema) (others : List OtherCheck) (db : Db) : Prop where
  deletedClasses : ∀ cls ∈ old.classes, cls ∉ new.classes →
    (old.classItem cls).isData = true ∧ ∀ i ∈ db, i.cls ≠ cls
  commonClasses : ∀ cls ∈ old.classes, cls ∈ new.classes →
    (old.classItem cls).readonly = (new.classItem cls).readonly ∨
      unameitCheckNoInstances old db cls { all := false, deleted := false } [] = true
  deletedAttributes : ∀ cls ∈ old.classes, cls ∈ new.classes →
    (old.classItem cls).isData = true → ∀ attr ∈ old.attributes cls,
      checkDeletedAttribute old new db cls attr = none
  others : ∀ check ∈ others, OtherCheck.run old db check = none

lemma checkClasses_eq_none_iff :
    unameitCheckClasses old new db = none ↔
      (∀ cls ∈ old.classes, cls ∉ new.classes →
        (old.classItem cls).isData = true ∧ ∀ i ∈ db, i.cls ≠ cls) ∧
      ∀ cls ∈ old.classes, cls ∈ new.classes →
        (old.classItem cls).readonly = (new.classItem cls).readonly ∨
          unameitCheckNoInstances old db cls { all := false, deleted := false } [] = true := by
  have hdeleted : ∀ cls, unameitCheckNoInstances old db cls { all := false, deleted := true } [] =
      true ↔ ∀ i ∈ db, i.cls ≠ cls := by
    simp [checkNoInstances_iff, Query.finds]
  simp only [unameitCheckClasses, orElse_eq_none, findSome?_eq_none_iff,
    mem_intersect3.1, mem_intersect3.2, and_imp]
  refine and_congr (forall_congr' fun cls => forall_congr' fun _ => forall_congr' fun _ => ?_)
    (forall_congr' fun cls => forall_congr' fun _ => forall_congr' fun _ => ?_)
  · split_ifs <;> simp_all
  · split_ifs <;> simp_all

lemma checkDeletedAttributes_eq_none_iff :
    unameitCheckDeletedAttributes old new db = none ↔
      ∀ cls ∈ old.classes, cls ∈ new.classes → (old.classItem cls).isData = true →
        ∀ attr ∈ old.attributes cls, checkDeletedAttribute old new db cls attr = none := by
  simp only [unameitCheckDeletedAttributes, findSome?_eq_none_iff, mem_intersect3.2,
    and_imp]
  refine forall_congr' fun cls => forall_congr' fun _ => forall_congr' fun _ => ?_
  split_ifs with hdata <;> simp [hdata, findSome?_eq_none_iff]

/-- The outcome of a change: the commands are those for the domains that the schemas ask for. -/
theorem changeSchema_eq_ok_iff {others : List OtherCheck} {commands} :
    unameitChangeSchema old new others db = .ok commands ↔
      Passes old new others db ∧ ∃ domains,
        unameitCheckPointerDomains old new (fun _ _ => false) = .ok domains ∧
        domains.Tame old (hasData old db) ∧
        commands = if schemaChanged old new domains then
          old.dataClasses.map fun cls => (cls, unameitDeconflictClass old new domains cls)
        else [] := by
  have hpasses : (unameitCheckClasses old new db <|> unameitCheckDeletedAttributes old new db <|>
      others.findSome? (OtherCheck.run old db)) = none ↔ Passes old new others db := by
    rw [orElse_eq_none, orElse_eq_none, checkClasses_eq_none_iff,
      checkDeletedAttributes_eq_none_iff, findSome?_eq_none_iff]
    constructor
    · rintro ⟨⟨hdeleted, hcommon⟩, hattributes, hothers⟩
      exact ⟨hdeleted, hcommon, hattributes, hothers⟩
    · rintro ⟨hdeleted, hcommon, hattributes, hothers⟩
      exact ⟨⟨hdeleted, hcommon⟩, hattributes, hothers⟩
  unfold unameitChangeSchema unameitDoGlobalValidation
  cases hchecks : unameitCheckClasses old new db <|> unameitCheckDeletedAttributes old new db <|>
      others.findSome? (OtherCheck.run old db) with
  | some e =>
    have hnot : ¬ Passes old new others db := by
      rw [← hpasses, hchecks]
      simp
    simp [hnot, bind, Except.bind]
  | none =>
    simp only [hpasses.1 hchecks, true_and, bind_eq_ok_iff]
    constructor
    · rintro ⟨⟨changed, domains⟩, ⟨ds, hds, hret⟩, hcommands⟩
      obtain ⟨rfl, rfl⟩ := Prod.mk.inj (Except.ok.inj hret)
      obtain ⟨hok, htame⟩ := checkPointerDomains_eq_ok_iff.1 hds
      refine ⟨ds, hok, htame, ?_⟩
      split_ifs at hcommands ⊢ <;> exact (Except.ok.inj hcommands).symm
    · rintro ⟨ds, hok, htame, rfl⟩
      have hds := checkPointerDomains_eq_ok_iff.2 ⟨hok, htame⟩
      refine ⟨(schemaChanged old new ds, ds), ⟨ds, hds, rfl⟩, ?_⟩
      split_ifs <;> rfl

/-! ## Dropped columns -/

/-- A change that succeeds as far as no data is in its way, and changes the tables. -/
structure Acceptable (old new : Schema) (others : List OtherCheck) (domains : Domains) : Prop where
  deletedClasses : ∀ cls ∈ old.classes, cls ∉ new.classes → (old.classItem cls).isData = true
  noFailure : ∀ code, OtherCheck.fails code ∉ others
  asked : unameitCheckPointerDomains old new (fun _ _ => false) = .ok domains
  changed : schemaChanged old new domains = true

/-- Data is lost: a column is dropped in which a direct instance of the class has a value, be it an
empty set. -/
def Loses (db : Db) (commands : List (Uuid × List MetaCommand)) : Prop :=
  ∃ cls cmds aname, (cls, cmds) ∈ commands ∧ .dropAttribute aname ∈ cmds ∧
    ∃ i ∈ db, i.cls = cls ∧ (i.value aname).isSome = true

/-- One of the checks that ask for an attribute looks at the column before it is dropped. -/
inductive Asked (old new : Schema) (domains : Domains) (cls d : Uuid) : Prop
  | deletedAttribute (definingClass : Uuid) (h : new.attributeItem d = none)
      (hold : old.attributeClass d = some definingClass) (hnew : definingClass ∈ new.classes)
  | notInherited (item : AttributeItem) (h : new.attributeItem d = some item)
      (hisa : new.isa item.cls cls = false)
  | newDomain (h : (cls, d) ∈ domains.new.map Prod.fst)
      (hold : (old.pointerDomain cls d).isSome = true)

/-- The checks find every value of the column: that of a deleted class finds all instances, but those
that ask for an attribute find no empty sets and sequences. -/
inductive Covered (old new : Schema) (domains : Domains) (cls d : Uuid) : Prop
  | deletedClass (h : cls ∉ new.classes)
  | scalar (h : old.multiplicity (old.attributeName d) = .scalar)
      (hasked : Asked old new domains cls d)

lemma mem_deconflictAttribute :
    .dropAttribute aname ∈ deconflictAttribute old new domains cls attr ↔
      old.attributeClass (old.defining attr) ≠ some old.unameitItem ∧
        drops old new domains cls (old.defining attr) = true ∧
        aname = old.attributeName (old.defining attr) := by
  unfold deconflictAttribute
  dsimp only
  split_ifs with hitem hdrops hown <;> simp_all

lemma mem_deconflictClass :
    .dropAttribute aname ∈ unameitDeconflictClass old new domains cls ↔
      ∃ attr ∈ old.attributes cls,
        old.attributeClass (old.defining attr) ≠ some old.unameitItem ∧
          drops old new domains cls (old.defining attr) = true ∧
          aname = old.attributeName (old.defining attr) := by
  simp [unameitDeconflictClass, mem_flatMap, mem_deconflictAttribute]

lemma defining_of_isDefining {s : Schema} (h : s.isDefining d = true) : s.defining d = d := by
  unfold Schema.isDefining at h
  unfold Schema.defining
  split at h
  · next heq => rw [heq]
  · cases h

/-! ## Covered columns are empty -/

section Covered

variable {others : List OtherCheck}

lemma Covered.value_eq_none (hcovered : Covered old new domains cls (old.defining attr))
    (hold : old.Sound) (hpasses : Passes old new others db)
    (htame : domains.Tame old (hasData old db)) (hcls : cls ∈ old.dataClasses)
    (hattr : attr ∈ old.attributes cls) :
    ∀ i ∈ db, i.cls = cls → ¬ (i.value (old.attributeName (old.defining attr))).isSome = true := by
  rintro i hi rfl hvalue
  obtain ⟨hmem, hdata⟩ := (hold.dataClasses i.cls).1 hcls
  obtain ⟨definingClass, htraces⟩ := hold.traces i.cls hcls attr hattr
  by_cases hstable : i.cls ∈ new.classes
  swap
  · exact (hpasses.deletedClasses i.cls hmem hstable).2 i hi rfl
  rcases hcovered with hgone | ⟨hscalar, hasked⟩
  · exact hgone hstable
  rw [← differs_of_scalar hscalar] at hvalue
  cases hasked with
  | deletedAttribute definingClass' h hclass hnew =>
    obtain rfl : definingClass = definingClass' :=
      some.inj (htraces.belongs.symm.trans hclass)
    -- the check for the defining class asks for the instances of all subclasses
    have hcheck := hpasses.deletedAttributes definingClass htraces.mem hnew htraces.isData _
      htraces.own
    have hfinds : Query.finds old { all := true, deleted := true } definingClass
        [old.attributeName (old.defining attr)] i = true := by
      simp [Query.finds, htraces.isa, hvalue]
    have hno : ¬ unameitCheckNoInstances old db definingClass { all := true, deleted := true }
        [old.attributeName (old.defining attr)] = true :=
      not_checkNoInstances_iff.2 ⟨i, hi, hfinds⟩
    simp [checkDeletedAttribute, defining_of_isDefining htraces.defining, h, hclass, hno] at hcheck
  | notInherited item h hisa =>
    have hcheck := hpasses.deletedAttributes i.cls hmem hstable hdata attr hattr
    have hno : ¬ unameitCheckNoInstances old db i.cls { all := false, deleted := true }
        [old.attributeName (old.defining attr)] = true :=
      not_checkNoInstances_iff.2 ⟨i, hi, finds_column_iff.2 ⟨rfl, hvalue⟩⟩
    simp [checkDeletedAttribute, h, hisa, hno] at hcheck
  | newDomain h hpointer =>
    rcases htame _ h with hnone | hdata
    · rw [hnone] at hpointer
      cases hpointer
    · rw [hasData_iff.2 ⟨i, hi, rfl, hvalue⟩] at hdata
      cases hdata

/-! ## Columns that are not covered -/

def deletedInstance (cls : Uuid) (aname : CString) : Instance where
  cls := cls
  deleted := true
  value := fun aname' => if aname' = aname then some [] else none

lemma differs_deletedInstance : (deletedInstance cls aname).differs old aname' = true ↔
    aname' = aname ∧ old.multiplicity aname' = .scalar := by
  unfold Instance.differs
  cases old.multiplicity aname' <;> simp [deletedInstance, Option.any_eq_true]

lemma finds_deletedInstance {cls' : Uuid} {all deleted : Bool} :
    Query.finds old { all := all, deleted := deleted } cls' [aname'] (deletedInstance cls aname) =
      true ↔ (if all then old.isa cls' cls = true else cls = cls') ∧ deleted = true ∧
        aname' = aname ∧ old.multiplicity aname' = .scalar := by
  have hcls : (deletedInstance cls aname).cls = cls := rfl
  have hdeleted : (deletedInstance cls aname).deleted = true := rfl
  cases all <;> simp [Query.finds, hcls, hdeleted, differs_deletedInstance, and_assoc]

/-- Nothing is in the way of a change when the only instance is in a column without cover. -/
theorem passes_of_not_covered (hold : old.Sound) (hchange : Acceptable old new others domains)
    (hcls : cls ∈ old.dataClasses) (hattr : attr ∈ old.attributes cls)
    (hnot : ¬ Covered old new domains cls (old.defining attr)) :
    Passes old new others
      [deletedInstance cls (old.attributeName (old.defining attr))] where
  deletedClasses := by
    intro cls' hmem hgone
    refine ⟨hchange.deletedClasses cls' hmem hgone, ?_⟩
    intro i hi hi'
    obtain rfl := mem_singleton.1 hi
    subst hi'
    exact hnot (.deletedClass hgone)
  commonClasses := by
    intro cls' _ _
    simp [unameitCheckNoInstances, Query.finds, deletedInstance]
  deletedAttributes := by
    intro cls' hmem hstable hdata attr' hattr'
    have hcls' := (hold.dataClasses cls').2 ⟨hmem, hdata⟩
    obtain ⟨definingClass, htraces⟩ := hold.traces cls hcls attr hattr
    obtain ⟨definingClass', htraces'⟩ := hold.traces cls' hcls' attr' hattr'
    -- a check that fails has found the instance, so it is about the same attribute
    have hsame := hold.names _ _ htraces'.defining htraces.defining
    unfold checkDeletedAttribute
    dsimp only
    split
    · next hgone =>
        split_ifs with hown hcheck
        · rfl
        · rfl
        · obtain ⟨i, hi, hfinds⟩ := not_checkNoInstances_iff.1 hcheck
          obtain rfl := mem_singleton.1 hi
          obtain ⟨-, -, hname, hscalar⟩ := finds_deletedInstance.1 hfinds
          rw [hsame hname] at hgone hown hscalar
          exact hnot (.scalar hscalar (.deletedAttribute cls' hgone (not_not.1 hown) hstable))
    · next item hitem =>
        split_ifs with hisa hcheck
        · rfl
        · rfl
        · obtain ⟨i, hi, hfinds⟩ := not_checkNoInstances_iff.1 hcheck
          obtain rfl := mem_singleton.1 hi
          obtain ⟨rfl, -, hname, hscalar⟩ := finds_deletedInstance.1 hfinds
          rw [hsame hname] at hitem hscalar
          exact hnot (.scalar hscalar (.notInherited item hitem (by simpa using hisa)))
  others := by
    intro check hcheck
    cases check with
    | fails code => exact absurd hcheck (hchange.noFailure code)
    | noInstances cls' all anames code =>
      simp [OtherCheck.run, unameitCheckNoInstances, Query.finds, deletedInstance]

lemma tame_of_not_covered (hold : old.Sound) (hcls : cls ∈ old.dataClasses)
    (hattr : attr ∈ old.attributes cls) (hnot : ¬ Covered old new domains cls (old.defining attr)) :
    domains.Tame old
      (hasData old [deletedInstance cls (old.attributeName (old.defining attr))]) := by
  intro k hk
  by_contra hno
  obtain ⟨hpointer, hdata⟩ := not_or.1 hno
  have hpointer := isSome_iff_ne_none.2 hpointer
  obtain ⟨i, hi, hi', hdiffers⟩ := hasData_iff.1 (eq_true_of_ne_false hdata)
  obtain rfl := mem_singleton.1 hi
  obtain ⟨definingClass, htraces⟩ := hold.traces cls hcls attr hattr
  obtain ⟨hname, hscalar⟩ := differs_deletedInstance.1 hdiffers
  have hd := hold.names _ _ (hold.pointers _ _ hpointer) htraces.defining hname
  have hkey : k = (cls, old.defining attr) := Prod.ext hi'.symm hd
  subst hkey
  exact hnot (.scalar hscalar (.newDomain hk hpointer))

end Covered

/-- A change of schemas loses no data, whatever the database contains, if and only if every column
that it drops is covered by a check. -/
theorem changeSchema_keeps_data_iff {others : List OtherCheck} (hold : old.Sound) :
    (∀ db commands, unameitChangeSchema old new others db = .ok commands → ¬ Loses db commands) ↔
      ∀ domains, Acceptable old new others domains → ∀ cls ∈ old.dataClasses,
        ∀ attr ∈ old.attributes cls,
          old.attributeClass (old.defining attr) ≠ some old.unameitItem →
          drops old new domains cls (old.defining attr) = true →
          Covered old new domains cls (old.defining attr) := by
  constructor
  · intro hkeeps domains hchange cls hcls attr hattr hitem hdrops
    by_contra hnot
    refine hkeeps _ _ (changeSchema_eq_ok_iff.2 ⟨passes_of_not_covered hold hchange hcls hattr hnot,
      domains, hchange.asked, tame_of_not_covered hold hcls hattr hnot, rfl⟩) ?_
    rw [if_pos hchange.changed]
    refine ⟨cls, _, old.attributeName (old.defining attr), mem_map_of_mem hcls,
      mem_deconflictClass.2 ⟨attr, hattr, hitem, hdrops, rfl⟩, _, mem_singleton_self _, rfl,
      by simp [deletedInstance]⟩
  · rintro hcovered db commands hok ⟨cls, cmds, aname, hcmds, hdrop, i, hi, hi', hvalue⟩
    obtain ⟨hpasses, domains, hasked, htame, rfl⟩ := changeSchema_eq_ok_iff.1 hok
    by_cases hchanged : schemaChanged old new domains = true
    swap
    · rw [if_neg hchanged] at hcmds
      cases hcmds
    rw [if_pos hchanged] at hcmds
    obtain ⟨cls', hcls, heq⟩ := mem_map.1 hcmds
    obtain ⟨rfl, rfl⟩ := Prod.mk.inj heq
    obtain ⟨attr, hattr, hitem, hdrops, rfl⟩ := mem_deconflictClass.1 hdrop
    have hchange : Acceptable old new others domains :=
      { deletedClasses := fun cls hmem hgone => (hpasses.deletedClasses cls hmem hgone).1
        noFailure := fun code hcode => by cases hpasses.others _ hcode
        asked := hasked
        changed := hchanged }
    exact (hcovered domains hchange cls' hcls attr hattr hitem hdrops).value_eq_none hold hpasses
      htame hcls hattr i hi hi' hvalue

/-! ## Services and ports -/

def portSchema (hasClass hasAttribute : Bool) : Schema where
  classes := if hasClass then [0, 1, 2, 3] else [0, 1, 3]
  classItem := fun cls =>
    { name := if cls = 3 then "tcp_service".toList else if cls = 2 then "tcp_port".toList
        else if cls = 1 then "unameit_data_item".toList else "unameit_item".toList
      isData := true
      readonly := cls ≠ 3
      supers := if cls = 3 ∧ hasClass then [2] else if cls = 0 then [] else [1] }
  attributeItems := if hasAttribute then [4] else []
  attributeItem := fun attr =>
    if hasAttribute ∧ attr = 4 then
      some { cls := 2, resolution := .defining "ip_port".toList, pointerDomain := none }
    else none
  multiplicity := fun _ => .scalar
  isa := fun super cls =>
    (super, cls) ∈ [(0, 0), (0, 1), (0, 3), (1, 1), (1, 3), (3, 3)] ++
      if hasClass then [(0, 2), (1, 2), (2, 2), (2, 3)] else []
  attributes := fun cls => if hasAttribute ∧ (cls = 2 ∨ cls = 3) then [4] else []
  directSupers := fun cls => if cls = 3 ∧ hasClass then [2] else if cls = 0 then [] else
    if cls = 1 then [0] else [1]
  pointerDomain := fun _ _ => none
  dataClasses := if hasClass then [0, 1, 2, 3] else [0, 1, 3]
  unameitItem := 0
  dataItem := 1

section PortSchema

variable {hasClass hasAttribute : Bool}

lemma portSchema_attributes (h : attr ∈ (portSchema hasClass hasAttribute).attributes cls) :
    hasAttribute = true ∧ (cls = 2 ∨ cls = 3) ∧ attr = 4 := by
  change attr ∈ (if hasAttribute = true ∧ (cls = 2 ∨ cls = 3) then [4] else []) at h
  split_ifs at h with hcls
  · exact ⟨hcls.1, hcls.2, mem_singleton.1 h⟩
  · cases h

lemma portSchema_isDefining (h : (portSchema hasClass hasAttribute).isDefining d = true) :
    d = 4 := by
  by_contra hne
  have hnone : (portSchema hasClass hasAttribute).attributeItem d = none :=
    if_neg fun hd => hne hd.2
  simp [Schema.isDefining, hnone] at h

lemma portSchema_reflexive : (portSchema hasClass hasAttribute).Reflexive := by
  intro (cls : ℕ)
  change decide ((cls, cls) ∈ [(0, 0), (0, 1), (0, 3), (1, 1), (1, 3), (3, 3)] ++
    if hasClass = true then [(0, 2), (1, 2), (2, 2), (2, 3)] else []) = true ↔
      cls ∈ if hasClass = true then [0, 1, 2, 3] else [0, 1, 3]
  cases hasClass with
  | false =>
    simp
    omega
  | true =>
    simp
    omega

/-- The attribute is there only with its class. -/
theorem portSchema_sound (h : hasAttribute = true → hasClass = true) :
    (portSchema hasClass hasAttribute).Sound where
  reflexive := portSchema_reflexive
  dataClasses := fun _ => (and_iff_left rfl).symm
  traces := by
    intro cls _ attr hattr
    obtain ⟨rfl, hcls, rfl⟩ := portSchema_attributes hattr
    obtain rfl := h rfl
    refine ⟨2, ⟨by decide, by decide, ?_, by decide, by decide, by decide⟩⟩
    rcases hcls with rfl | rfl <;> decide
  names := by
    intro d d' hd hd' _
    rw [portSchema_isDefining hd, portSchema_isDefining hd']
  pointers := by
    intro cls d h
    cases h

end PortSchema

/-- The attribute alone may be deleted: the check for its class finds all values. -/
theorem changeSchema_keeps_data_port : (portSchema true true).Sound ∧ ∀ db commands,
    unameitChangeSchema (portSchema true true) (portSchema true false) [] db = .ok commands →
      ¬ Loses db commands := by
  refine ⟨portSchema_sound fun _ => rfl,
    (changeSchema_keeps_data_iff (portSchema_sound fun _ => rfl)).2 ?_⟩
  intro domains _ cls _ attr hattr _ _
  obtain ⟨-, hcls, rfl⟩ := portSchema_attributes hattr
  exact .scalar rfl (.deletedAttribute 2 (by decide) (by decide) (by decide))

/-- When the class is deleted together with the attribute, the services lose their ports. -/
theorem changeSchema_loses_ports :
    ¬ ∀ (old new : Schema) (others : List OtherCheck) (db : Db) (commands),
      old.Sound → new.Sound → unameitChangeSchema old new others db = .ok commands →
        ¬ Loses db commands := by
  intro h
  let service : Instance :=
    { cls := 3, deleted := false
      value := fun aname => if aname = "ip_port".toList then some "80".toList else none }
  refine h (portSchema true true) (portSchema false false) [] [service] _
    (portSchema_sound fun _ => rfl) (portSchema_sound nofun) rfl ?_
  exact ⟨3, [.editClass "tcp_service".toList, .dropAttribute "ip_port".toList, .finishClass],
    "ip_port".toList, by decide, by decide, service, by simp, rfl, rfl⟩

end Meta
end Unameit
