import Unameit.Auth.Cache

/-!
# Auth.Limits — principals cannot extend what they were given

Principals hand out roles among themselves, and the server decides from tables that may be out of
date.  When every change to a record has passed `unameit_check_grant_auth`, the records never say
more than the first ones (`Db.Backs`).  The entries of the tables are backed in the same way, so
that a table that should have been dropped can only repeat what was once given.
-/

namespace Unameit
namespace Auth

open List

variable {cnames : DbObject → Option CString} {db db' : Db} {p role sub o owner uuid : DbObject}
  {σ : State} {τ : Server}

/-! ## What is backed -/

/-- A record of the database gives the role or one above it, at the region or above it. -/
def Db.Backs (db : Db) (role o : DbObject) : Prop :=
  ∃ entry ∈ db.records, UpTo db.regions.owner o entry.2.owner ∧ Covers db.roles entry.2.role role

lemma Db.Backs.mono (h : db.Backs role o) (hsub : Covers db.roles role sub)
    (hup : UpTo db.regions.owner owner o) : db.Backs sub owner := by
  rcases h with ⟨entry, hentry, hup', hcov⟩
  exact ⟨entry, hentry, hup.trans hup', hsub.trans hcov⟩

/-- The other database has the same regions and roles, and only records that are backed. -/
structure Db.Limits (db db' : Db) : Prop where
  regions : db'.regions = db.regions
  roles : db'.roles = db.roles
  records : ∀ entry ∈ db'.records, db.Backs entry.2.role entry.2.owner

def Db.LimitsTable (db : Db) (table : Pgrant) : Prop :=
  ∀ e ∈ table, db.Backs e.1.2 e.1.1

structure Server.Limited (db : Db) (τ : Server) : Prop where
  tables : ∀ r entry, τ.tables.entry r = some entry → ∀ s ∈ entry.subroles, Covers db.roles r s
  pgrant : ∀ p, db.LimitsTable (τ.pgrant p)

/-! ## The tables -/

/-- Loading enters only what is backed, also when it stops with an error. -/
def Load.Limited (db : Db) (radmin : DbObject) (load : Load) : Prop :=
  ∃ ops roles, load.Holds radmin ops roles ∧ ∀ o r, roles o r → db.Backs r o

lemma Load.Limited.addRecord (h : τ.Limited db) {radmin : DbObject} {load : Load}
    (hload : load.Limited db radmin) {item : Record} (hitem : db.Backs item.role item.owner) :
    (load.addRecord τ.tables radmin item).Limited db radmin := by
  rcases hload with ⟨ops, roles, hholds, hbacks⟩
  unfold Load.addRecord
  split_ifs
  · exact ⟨ops, roles, hholds, hbacks⟩
  · cases he : τ.tables.entry item.role with
    | none => exact ⟨ops, roles, ⟨hholds.pauth, hholds.pgrant, hholds.isradmin⟩, hbacks⟩
    | some entry =>
      refine ⟨_, _, (hholds.addRoles item.owner entry.subroles).addClasses item.owner entry, ?_⟩
      rintro o r (hr | ⟨rfl, hr⟩)
      · exact hbacks o r hr
      · exact hitem.mono (h.tables _ _ he r hr) .refl

lemma Server.Limited.loadPrincipal (h : τ.Limited db) (hdb : db.Limits db') (p : DbObject) :
    db.LimitsTable (loadPrincipal db' τ.tables p).pgrant := by
  unfold Auth.loadPrincipal
  cases τ.tables.roleUuid regionadmin with
  | none => exact forall_mem_nil _
  | some radmin =>
    have hbegin : Load.Limited db radmin ⟨[], [], false, false⟩ :=
      ⟨fun _ _ _ => False, fun _ _ => False, ⟨by simp, by simp, by simp⟩, nofun⟩
    obtain ⟨ops, roles, hholds, hbacks⟩ : Load.Limited db radmin _ :=
      List.foldlRecOn (db'.recordsOf p) (Load.addRecord τ.tables radmin) hbegin
        fun load hload item hitem => by
          rcases mem_map.1 (mem_filter.1 hitem).1 with ⟨entry, hentry, rfl⟩
          exact hload.addRecord h (hdb.records entry hentry)
    have hpgrant : ∀ {load ops}, Load.Holds radmin ops roles load → db.LimitsTable load.pgrant :=
      fun hload e he => hbacks _ _ ((hload.pgrant e.1 e.2).1 he).2
    have hrecords := hpgrant hholds
    simp only [Load.addRoot]
    split_ifs
    · exact hrecords
    · split
      · exact hrecords
      · exact hpgrant (hholds.addClasses _ _)

lemma Server.Limited.usePrincipal (h : τ.Limited db) (hdb : db.Limits db') (p : DbObject) :
    (usePrincipal db' τ p).1.Limited db := by
  have hupdate : ∀ {f : DbObject → Pgrant} {q table}, (∀ x, db.LimitsTable (f x)) →
      db.LimitsTable table → ∀ x, db.LimitsTable (Function.update f q table x) :=
    fun hf htable => (Function.forall_update_iff _ _).2 ⟨htable, fun x _ => hf x⟩
  have hset : (τ.setTables p (Auth.loadPrincipal db' τ.tables p)).Limited db :=
    ⟨h.tables, hupdate h.pgrant (h.loadPrincipal hdb p)⟩
  unfold Auth.usePrincipal
  split_ifs
  · exact ⟨h.tables, h.pgrant⟩
  · exact hset
  · unfold enterCache
    split
    · exact ⟨hset.tables, hset.pgrant⟩
    · exact ⟨hset.tables, hupdate hset.pgrant (forall_mem_nil _)⟩

lemma Server.Limited.flush (hs : SoundRoles db.roles) (h : τ.Limited db)
    (hdb : db.Limits db') : (unameitFlushAuthCache cnames db' τ).Limited db := by
  have hdrop : ∀ (l : List DbObject) q, db.LimitsTable (if q ∈ l then [] else τ.pgrant q) := by
    intro l q
    split_ifs
    · exact forall_mem_nil _
    · exact h.pgrant q
  unfold unameitFlushAuthCache
  split_ifs
  · refine ⟨fun r entry he s => ?_, hdrop _⟩
    rw [hdb.roles] at he
    exact ((hs.unameitReloadRoles_right cnames).subroles r entry he s).1
  · exact ⟨h.tables, hdrop _⟩
  · exact ⟨h.tables, hdrop _⟩

/-! ## The answers -/

/-- A positive answer comes from an entry on the way up. -/
theorem walkUp_true {F : Forest} {entry : DbObject → Option Bool} {saves stops : DbObject → Bool}
    {n : ℕ} (h : (walkUp F entry saves stops n (some o)).2 = true) :
    ∃ x, UpTo F.owner o x ∧ entry x = some true := by
  induction n generalizing o with
  | zero => simp [walkUp] at h
  | succ n ih =>
    unfold walkUp at h
    cases he : entry o with
    | some allow =>
      obtain rfl : allow = true := by simpa [he] using h
      exact ⟨o, .refl, he⟩
    | none =>
      cases hs : stops o with
      | true => simp [he, hs] at h
      | false =>
        cases hy : F.owner o with
        | none => simp [he, hs, hy, walkUp] at h
        | some y =>
          rcases ih (o := y) (by simpa [he, hs, hy] using h) with ⟨x, hx, hentry⟩
          exact ⟨x, .head hy hx, hentry⟩

lemma Server.Limited.backs (h : τ.Limited db)
    (hgrant : (unameitTestGrant db.regions τ p role owner).1 = true) : db.Backs role owner := by
  have hwalk : (db.regions.walk (fun o => (τ.pgrant p).lookup (o, role)) isaExists isaExists
      (some owner)).2 = true := hgrant
  obtain ⟨x, hx, hentry⟩ := walkUp_true hwalk
  obtain ⟨l₁, l₂, heq, -⟩ := lookup_eq_some_iff.1 hentry
  exact (h.pgrant p ((x, role), true) (by simp [heq])).mono .refl hx

/-! ## Runs -/

/-- A principal makes the change in a request, and the change has passed the check. -/
def Allowed (σ : State) (change : Change) : Prop :=
  ∃ p, σ.principal = some p ∧ (unameitCheckGrantAuth σ.working.regions σ.server p change).1 = true

/-- The records are changed by principals only, and roles and regions are not changed. -/
def Permitted (σ : State) : Event → Prop
  | .createAuthorization _ item => Allowed σ (.create item)
  | .updateAuthorization uuid new =>
    ∀ item, σ.working.records.lookup uuid = some item → Allowed σ (.update item new)
  | .deleteAuthorization uuid =>
    ∀ item, σ.working.records.lookup uuid = some item → Allowed σ (.delete item)
  | .changeRoles _ => False
  | .changeRegions _ _ => False
  | _ => True

structure Limited (db : Db) (σ : State) : Prop where
  committed : db.Limits σ.committed
  working : db.Limits σ.working
  server : σ.server.Limited db

lemma Limited.allowed (h : Limited db σ) {change : Change} (hok : Allowed σ change) :
    ∀ q ∈ change.pairs, db.Backs q.1 q.2 := by
  rcases hok with ⟨p, -, hcheck⟩
  rw [h.working.regions] at hcheck
  exact fun q hq => h.server.backs ((checkGrantAuth_iff _ _ _ _).1 hcheck q hq)

lemma mem_setRecord {new : Option Record} {records : List (DbObject × Record)}
    {e : DbObject × Record} (he : e ∈ setRecord uuid new records) : e ∈ records ∨ e.2 ∈ new := by
  induction records with
  | nil => simp [setRecord] at he
  | cons entry records ih =>
    unfold setRecord at he
    cases new <;> grind

/-- The records change to ones that are backed, and principals are flagged. -/
theorem Limited.changeRecords (h : Limited db σ) (old new : Option DbObject)
    {records : List (DbObject × Record)} (hrecords : ∀ e ∈ records, db.Backs e.2.role e.2.owner) :
    Limited db { σ with
      working := { σ.working with records := records }
      server := unameitUncacheAuthorization σ.server old new } := by
  obtain ⟨l, heq, -⟩ := foldl_uncachePrincipal (old.toList ++ new.toList) σ.server
  rw [unameitUncacheAuthorization, heq]
  exact ⟨h.committed, ⟨h.working.regions, h.working.roles, hrecords⟩,
    h.server.tables, h.server.pgrant⟩

lemma Limited.step (hs : SoundRoles db.roles) (h : Limited db σ) (event : Event)
    (hok : Permitted σ event) : Limited db (step cnames σ event) := by
  cases event with
  | request p =>
    refine ⟨h.committed, h.committed, ?_⟩
    cases p with
    | none => exact h.server
    | some p =>
      refine Server.Limited.usePrincipal ?_ h.committed p
      split_ifs
      · exact h.server
      · exact h.server.flush hs h.committed
  | cando cls op owner =>
    cases hp : σ.principal <;> simp only [Auth.step, hp] <;>
      exact ⟨h.committed, h.working, h.server.tables, h.server.pgrant⟩
  | grant role owner =>
    cases hp : σ.principal <;> simp only [Auth.step, hp, testGrant_server] <;>
      exact ⟨h.committed, h.working, h.server⟩
  | createAuthorization uuid item =>
    refine h.changeRecords none (some item.principal) (forall_mem_append.2
      ⟨h.working.records, forall_mem_singleton.2 (h.allowed hok _ mem_cons_self)⟩)
  | updateAuthorization uuid new =>
    cases hitem : σ.working.records.lookup uuid with
    | none => simpa only [Auth.step, hitem] using h
    | some item =>
      simp only [Auth.step, hitem]
      split_ifs
      · exact h
      · refine h.changeRecords _ _ fun e he => ?_
        rcases mem_setRecord he with he | he
        · exact h.working.records e he
        · rw [← Option.some.inj he]
          exact h.allowed (hok item hitem) _ (mem_cons_of_mem _ mem_cons_self)
  | deleteAuthorization uuid =>
    cases hitem : σ.working.records.lookup uuid with
    | none => simpa only [Auth.step, hitem] using h
    | some item =>
      simp only [Auth.step, hitem]
      exact h.changeRecords _ _ fun e he =>
        h.working.records e ((mem_setRecord he).resolve_right (Option.not_mem_none _))
  | changeRoles rlist => exact hok.elim
  | changeRegions F admin => exact hok.elim
  | commit => exact ⟨h.working, h.working, h.server⟩
  | rollback => exact ⟨h.committed, h.committed, h.server⟩

/-- **No escalation.**  However the principals pass roles on to each other, and however old the
tables are that the server answers from, no record and no positive answer goes beyond the records
at the start. -/
theorem records_backed_of_run (cnames : DbObject → Option CString) (db : Db)
    (hs : SoundRoles db.roles) (events : List Event)
    (hok : Along cnames Permitted (State.start db) events) :
    let σ := run cnames (State.start db) events
    (∀ entry ∈ σ.committed.records ++ σ.working.records,
        db.Backs entry.2.role entry.2.owner) ∧
      ∀ p role owner, (unameitTestGrant σ.working.regions σ.server p role owner).1 = true →
        db.Backs role owner := by
  have hself : db.Limits db := ⟨rfl, rfl, fun entry hentry => ⟨entry, hentry, .refl, .refl⟩⟩
  have hrun : ∀ {σ}, Limited db σ → Along cnames Permitted σ events →
      Limited db (run cnames σ events) := by
    clear hok
    induction events with
    | nil => exact fun h _ => h
    | cons event events ih => exact fun h hok => ih (h.step hs event hok.1) hok.2
  have hlimited := hrun (σ := State.start db) ⟨hself, hself, nofun, fun _ => forall_mem_nil _⟩ hok
  refine ⟨forall_mem_append.2 ⟨hlimited.committed.records, hlimited.working.records⟩, ?_⟩
  rw [hlimited.working.regions]
  exact fun p role owner => hlimited.server.backs

/-- The administrator of cell 1 makes principal 6 an administrator of region 3. -/
theorem records_backed_of_run_outerAdmin : outerAdmin.Backs 10 3 := by
  have hcheck : Allowed (run (fun _ => none) (State.start outerAdmin) [.request (some 5)])
      (.create { principal := 6, role := 10, owner := 3 }) := ⟨5, by decide, by decide⟩
  exact (records_backed_of_run (fun _ => none) outerAdmin outerAdmin_sound
    [.request (some 5), .createAuthorization 21 { principal := 6, role := 10, owner := 3 }, .commit]
    ⟨trivial, hcheck, trivial, trivial⟩).1
      (21, { principal := 6, role := 10, owner := 3 }) (by decide)

end Auth
end Unameit
