import Unameit.Auth.Tables

/-!
# Auth.Grant — who may hand out a role

A principal may create, change or delete a record for a role and an owner if it holds the role, or
one above it, at the owner or above it in the same cell: this is `MayGrant`.  The walk of
`unameit_test_grant` is meant to end at the cell, but the test for cells uses a name that the
procedure does not link to the global array, and the walk goes on to the top of the tree.
-/

namespace Unameit
namespace Auth

section Grant

variable {cnames : DbObject → Option CString} {db : Db} {p : DbObject}

/-! ## The answer -/

/-- A question about a grant leaves the tables as they are. -/
theorem testGrant_server (F : Forest) (σ : Server) (p role owner : DbObject) :
    (unameitTestGrant F σ p role owner).2 = σ := by
  have hnil : (F.walk (fun o => (σ.pgrant p).lookup (o, role)) isaExists isaExists
      (some owner)).1 = [] := Forest.walk_fst (fun _ => rfl) _
  simp [unameitTestGrant, hnil]

def askGrants (F : Forest) (σ : Server) (p : DbObject) (questions : List (DbObject × DbObject)) :
    Server :=
  questions.foldl (fun σ q => (unameitTestGrant F σ p q.1 q.2).2) σ

lemma askGrants_eq (F : Forest) (σ : Server) (p : DbObject)
    (questions : List (DbObject × DbObject)) : askGrants F σ p questions = σ := by
  induction questions with
  | nil => rfl
  | cons q questions ih =>
    rw [askGrants, List.foldl_cons, testGrant_server]
    exact ih

/-- The roles and owners that a change of a record is about: the old ones, and for an update also
the new ones. -/
def Change.pairs : Change → List (DbObject × DbObject)
  | .create item => [(item.role, item.owner)]
  | .delete item => [(item.role, item.owner)]
  | .update item new => [(item.role, item.owner),
      (new.role.getD item.role, new.owner.getD item.owner)]

/-- A change is allowed if all its roles may be granted at their owners. -/
theorem checkGrantAuth_iff (F : Forest) (σ : Server) (p : DbObject) (change : Change) :
    (unameitCheckGrantAuth F σ p change).1 = true ↔
      ∀ q ∈ change.pairs, (unameitTestGrant F σ p q.1 q.2).1 = true := by
  cases change with
  | create item => simp [unameitCheckGrantAuth, Change.pairs]
  | delete item => simp [unameitCheckGrantAuth, Change.pairs]
  | update item new =>
    have hserver := testGrant_server F σ p item.role item.owner
    simp only [unameitCheckGrantAuth, Change.pairs, List.forall_mem_cons, List.not_mem_nil]
    cases hfirst : unameitTestGrant F σ p item.role item.owner with
    | mk allow σ' =>
      obtain rfl : σ' = σ := by rw [← hserver, hfirst]
      cases allow with
      | false => simp
      | true =>
        by_cases hsame : new.role = none ∧ new.owner = none
        · simp [hsame, hfirst]
        · simp [hsame]

/-- The first request of a principal loads its records. -/
theorem pgrant_of_first_request (hs : SoundRoles db.roles)
    (hok : (unameitPrincipal cnames db Server.start (some p)).2 = true) (role o : DbObject)
    (b : Bool) :
    ((unameitPrincipal cnames db Server.start (some p)).1.pgrant p).lookup (o, role) = some b ↔
      b = true ∧ HeldAt db p role o := by
  have hright := hs.unameitReloadRoles_right cnames
  set load := loadPrincipal db (unameitReloadRoles cnames db.roles) p with hload
  have hfailed : load.failed = false := by
    by_contra hne
    have htrue : load.failed = true := by simpa using hne
    simp [unameitPrincipal, usePrincipal, unameitFlushAuthCache, Server.start, Stale.none, ← hload,
      htrue] at hok
  have hpgrant : (unameitPrincipal cnames db Server.start (some p)).1.pgrant p =
      load.pgrant := by
    simp [unameitPrincipal, usePrincipal, unameitFlushAuthCache, Server.start, Stale.none,
      Server.setTables, enterCache, ← hload, hfailed]
  obtain ⟨radmin, hholds⟩ := loadPrincipal_holds hright hfailed
  rw [hpgrant]
  exact lookup_eq_some_true_iff hholds.pgrant (o, role) b

/-- Above a region where the role is not held, one has to look at the owner. -/
theorem heldAbove_iff_of_not_heldAt {role o : DbObject} (hnot : ¬ HeldAt db p role o) :
    (∃ x, UpTo db.regions.owner o x ∧ HeldAt db p role x) ↔
      isaExists o = false ∧ ∃ y, db.regions.owner o = some y ∧
        ∃ x, UpTo db.regions.owner y x ∧ HeldAt db p role x := by
  constructor
  · rintro ⟨x, hox, hx⟩
    rcases UpTo.iff_head.1 hox with rfl | ⟨y, hy, hyx⟩
    · exact absurd hx hnot
    · exact ⟨rfl, y, hy, x, hyx, hx⟩
  · rintro ⟨-, y, hy, x, hyx, hx⟩
    exact ⟨x, .head hy hyx, hx⟩

/-- What `unameit_test_grant` answers: the role is held somewhere above the owner, in whatever
cell. -/
theorem testGrant_iff_upTo_owner (hs : SoundRoles db.roles)
    (hok : (unameitPrincipal cnames db Server.start (some p)).2 = true) (role owner : DbObject) :
    (unameitTestGrant db.regions (unameitPrincipal cnames db Server.start (some p)).1 p role
        owner).1 = true ↔ ∃ x, UpTo db.regions.owner owner x ∧ HeldAt db p role x := by
  have hlookup := pgrant_of_first_request hs hok role
  set table := (unameitPrincipal cnames db Server.start (some p)).1.pgrant p with htable
  have hwalk : (db.regions.walk (fun o => table.lookup (o, role)) isaExists isaExists
      (some owner)).2 = true ↔
        ∃ o ∈ some owner, ∃ x, UpTo db.regions.owner o x ∧ HeldAt db p role x := by
    refine (Forest.walk_iff ?_ ?_ _).1
    · intro x b hx
      obtain ⟨rfl, hheld⟩ := (hlookup x b).1 hx
      exact iff_of_true rfl ⟨x, .refl, hheld⟩
    · exact fun x hx => heldAbove_iff_of_not_heldAt fun hheld => by
        simp [(hlookup x true).2 ⟨rfl, hheld⟩] at hx
  simpa [unameitTestGrant, ← htable] using hwalk

/-! ## The rule -/

lemma Forest.upTo_owner_of_inCell {F : Forest} {a b : DbObject} (h : UpTo F.inCell a b) :
    UpTo F.owner a b := by
  refine h.mono fun x y hxy => ?_
  unfold Forest.inCell at hxy
  split_ifs at hxy
  exact hxy

/-- Whatever has been asked before, the answer is the same; and it is the one of the rule if and
only if a role that is held at the owner or anywhere above it is also held within the cell. -/
theorem testGrant_mayGrant_iff (cnames : DbObject → Option CString) (db : Db) (p : DbObject)
    (hs : SoundRoles db.roles) (hok : (unameitPrincipal cnames db Server.start (some p)).2 = true)
    (questions : List (DbObject × DbObject)) (role owner : DbObject) :
    let σ := (unameitPrincipal cnames db Server.start (some p)).1
    let answer := (unameitTestGrant db.regions (askGrants db.regions σ p questions) p role owner).1
    answer = (unameitTestGrant db.regions σ p role owner).1 ∧
      ((answer = true ↔ MayGrant db p role owner) ↔
        ∀ x, UpTo db.regions.owner owner x → HeldAt db p role x → MayGrant db p role owner) := by
  intro σ answer
  have hanswer : answer = (unameitTestGrant db.regions σ p role owner).1 := by
    simp only [answer, askGrants_eq]
  refine ⟨hanswer, ?_⟩
  rw [hanswer, testGrant_iff_upTo_owner hs hok]
  constructor
  · intro h x hx hheld
    exact h.1 ⟨x, hx, hheld⟩
  · intro h
    refine ⟨fun ⟨x, hx, hheld⟩ => h x hx hheld, fun ⟨x, hx, hheld⟩ => ?_⟩
    exact ⟨x, Forest.upTo_owner_of_inCell hx, hheld⟩

end Grant

/-! ## An inner and an outer cell -/

def nestedCells : Forest where
  owner o := if 1 ≤ o ∧ o ≤ 3 then some (o - 1) else none
  isCell o := o ≤ 2
  root := 0
  height o := o
  owner_lt a b h := by
    split_ifs at h with ha
    obtain rfl : a - 1 = b := Option.some.inj h
    exact Nat.sub_one_lt_of_lt ha.1

def outerAdmin : Db where
  regions := nestedCells
  roles := [{ uuid := 10, roleName := regionadmin, owner := none, classes := fun _ => [] },
    { uuid := 11, roleName := rootadmin, owner := none, classes := fun _ => [] }]
  records := [(20, { principal := 5, role := 10, owner := 1 })]

lemma outerAdmin_sound : SoundRoles outerAdmin.roles where
  uuids := by decide
  names := by decide
  owners := by simp [outerAdmin]
  tree := ⟨fun _ => 0, by simp [outerAdmin]⟩

/-- In the cell of the record the answer is right. -/
theorem testGrant_mayGrant_iff_outerAdmin :
    (unameitTestGrant nestedCells
        (unameitPrincipal (fun _ => none) outerAdmin Server.start (some 5)).1 5 10 1).1 = true ↔
      MayGrant outerAdmin 5 10 1 := by
  have hheld : HeldAt outerAdmin 5 10 1 :=
    ⟨{ principal := 5, role := 10, owner := 1 }, by decide, rfl, .refl⟩
  exact (testGrant_mayGrant_iff (fun _ => none) outerAdmin 5 outerAdmin_sound (by decide) [] 10
    1).2.2 fun _ _ _ => ⟨1, .refl, hheld⟩

/-- The administrator of cell 1 may hand out the role in cell 2, which is another cell. -/
theorem testGrant_leaves_cell :
    ∃ (db : Db) (p role owner : DbObject), SoundRoles db.roles ∧
      (unameitPrincipal (fun _ => none) db Server.start (some p)).2 = true ∧
      (unameitTestGrant db.regions
        (unameitPrincipal (fun _ => none) db Server.start (some p)).1 p role owner).1 = true ∧
      ¬ MayGrant db p role owner := by
  refine ⟨outerAdmin, 5, 10, 3, outerAdmin_sound, by decide, by decide, ?_⟩
  rintro ⟨x, hx, item, hitem, hx', -⟩
  have hitem : item.owner = 1 := by
    obtain rfl : item = { principal := 5, role := 10, owner := 1 } := by
      simpa [Db.recordsOf, outerAdmin] using hitem
    rfl
  -- the way up from region 3 ends at its cell 2
  rcases UpTo.iff_head.1 hx with rfl | ⟨y, hy, hyx⟩
  · simp [hitem] at hx'
  · obtain rfl : 2 = y := Option.some.inj hy
    rcases UpTo.iff_head.1 hyx with rfl | ⟨z, hz, -⟩
    · simp [hitem] at hx'
    · simp [Forest.inCell, outerAdmin, nestedCells] at hz

end Auth
end Unameit
