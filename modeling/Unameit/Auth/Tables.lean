import Unameit.Auth.Roles

/-!
# Auth.Tables — the tables of a principal, and walks that read them

Two facts about the tables are shared by the two questions that the server answers.  A principal
that is loaded without an error has entries for exactly what its records give (`Load.Holds`).  And
the walk up the region tree finds the right answer when the entries it meets are right, and when
the answer for a region without an entry is the answer for the next region on the way (`walk_iff`).
-/

namespace Unameit
namespace Auth

open List

/-! ## Loading -/

section Load

variable {cnames : DbObject → Option CString} {rlist : List Role} {tables : RoleTables}

/-- A table of answers that are all positive. -/
theorem lookup_eq_some_true_iff {κ : Type*} [BEq κ] [LawfulBEq κ] {table : List (κ × Bool)}
    {P : κ → Prop} (h : ∀ k b, (k, b) ∈ table ↔ b = true ∧ P k) (k : κ) (b : Bool) :
    table.lookup k = some b ↔ b = true ∧ P k := by
  constructor
  · intro hk
    obtain ⟨l₁, l₂, rfl, -⟩ := lookup_eq_some_iff.1 hk
    exact (h k b).1 (by simp)
  · rintro ⟨rfl, hP⟩
    have hmem : (k, true) ∈ table := (h k true).2 ⟨rfl, hP⟩
    cases hl : table.lookup k with
    | none => simpa using lookup_eq_none_iff.1 hl _ hmem
    | some b =>
      obtain ⟨l₁, l₂, rfl, -⟩ := lookup_eq_some_iff.1 hl
      rw [((h k b).1 (by simp)).1]

structure Load.Holds (radmin : DbObject) (ops : DbObject → CString → Op → Prop)
    (roles : DbObject → DbObject → Prop) (load : Load) : Prop where
  pauth : ∀ k b, (k, b) ∈ load.pauth ↔ b = true ∧ ops k.1 k.2.1 k.2.2
  pgrant : ∀ k b, (k, b) ∈ load.pgrant ↔ b = true ∧ roles k.1 k.2
  isradmin : load.isradmin = true ↔ ∃ o, roles o radmin

namespace Load

variable {load : Load} {radmin : DbObject} {ops ops' : DbObject → CString → Op → Prop}
  {roles roles' : DbObject → DbObject → Prop}

lemma Holds.congr (h : load.Holds radmin ops roles)
    (hops : ∀ o cls op, ops o cls op ↔ ops' o cls op) (hroles : ∀ o r, roles o r ↔ roles' o r) :
    load.Holds radmin ops' roles' where
  pauth k b := by rw [h.pauth, hops]
  pgrant k b := by rw [h.pgrant, hroles]
  isradmin := by simp only [h.isradmin, hroles]

lemma Holds.addOp (h : load.Holds radmin ops roles) (owner : DbObject) (cls : CString) (op : Op) :
    Holds radmin (fun o c p => ops o c p ∨ (o = owner ∧ c = cls ∧ p = op)) roles
      { load with pauth := ((owner, cls, op), true) :: load.pauth } where
  pauth k b := by
    obtain ⟨o, c, p⟩ := k
    simp only [mem_cons, Prod.mk.injEq, h.pauth]
    tauto
  pgrant := h.pgrant
  isradmin := h.isradmin

lemma Holds.addRole (h : load.Holds radmin ops roles) (owner subrole : DbObject) :
    Holds radmin ops (fun o r => roles o r ∨ (o = owner ∧ r = subrole))
      { load with
        pgrant := ((owner, subrole), true) :: load.pgrant
        isradmin := load.isradmin || subrole = radmin } where
  pauth := h.pauth
  pgrant k b := by
    obtain ⟨o, r⟩ := k
    simp only [mem_cons, Prod.mk.injEq, h.pgrant]
    tauto
  isradmin := by
    simp only [Bool.or_eq_true, decide_eq_true_eq, h.isradmin, exists_or, exists_eq_left]
    rw [eq_comm (a := radmin)]

lemma Holds.addOps (owner : DbObject) (op : Op) (l : List CString)
    (h : load.Holds radmin ops roles) :
    Holds radmin (fun o c p => ops o c p ∨ (o = owner ∧ c ∈ l ∧ p = op)) roles
      (l.foldl (fun load cls => { load with pauth := ((owner, cls, op), true) :: load.pauth })
        load) := by
  induction l generalizing load ops with
  | nil => exact h.congr (by simp) (by simp)
  | cons cls l ih =>
    refine (ih (h.addOp owner cls op)).congr (fun o c p => ?_) fun o r => Iff.rfl
    simp only [mem_cons]
    tauto

lemma Holds.addClasses (h : load.Holds radmin ops roles) (owner : DbObject) (entry : RoleEntry) :
    (load.addClasses owner entry).Holds radmin
      (fun o cls op => ops o cls op ∨ (o = owner ∧ cls ∈ entry.classes op)) roles := by
  refine (((h.addOps owner .create _).addOps owner .update _).addOps owner .delete _).congr
    (fun o cls op => ?_) fun o r => Iff.rfl
  cases op <;> simp

lemma Holds.addRoles (owner : DbObject) (l : List DbObject) (h : load.Holds radmin ops roles) :
    Holds radmin ops (fun o r => roles o r ∨ (o = owner ∧ r ∈ l))
      (l.foldl (fun load subrole =>
        { load with
          pgrant := ((owner, subrole), true) :: load.pgrant
          isradmin := load.isradmin || subrole = radmin }) load) := by
  induction l generalizing load roles with
  | nil => exact h.congr (by simp) (by simp)
  | cons subrole l ih =>
    refine (ih (h.addRole owner subrole)).congr (fun o c p => Iff.rfl) fun o r => ?_
    simp only [mem_cons]
    tauto

/-- A record that is loaded without an error gives what its role gives, at its owner. -/
theorem Holds.addRecord (ht : tables.Right cnames rlist) (h : load.Holds radmin ops roles)
    (item : Record) (hok : (load.addRecord tables radmin item).failed = false) :
    load.failed = false ∧
      (load.addRecord tables radmin item).Holds radmin
        (fun o cls op => ops o cls op ∨
          (item.owner = o ∧ Lists cnames rlist item.role cls op))
        (fun o r => roles o r ∨ (item.owner = o ∧ Covers rlist item.role r)) := by
  unfold Load.addRecord at hok ⊢
  cases hf : load.failed with
  | true => simp [hf] at hok
  | false =>
    refine ⟨rfl, ?_⟩
    cases he : tables.entry item.role with
    | none => simp [hf, he] at hok
    | some entry =>
      refine ((h.addRoles item.owner entry.subroles).addClasses item.owner entry).congr
        (fun o cls op => ?_) fun o r => ?_
      · rw [ht.classes _ _ he, eq_comm (a := o)]
      · rw [ht.subroles _ _ he, eq_comm (a := o)]

lemma Holds.addRecords (ht : tables.Right cnames rlist) (items : List Record)
    (h : load.Holds radmin ops roles)
    (hok : (items.foldl (Load.addRecord tables radmin) load).failed = false) :
    load.failed = false ∧
      (items.foldl (Load.addRecord tables radmin) load).Holds radmin
        (fun o cls op => ops o cls op ∨
          ∃ item ∈ items, item.owner = o ∧ Lists cnames rlist item.role cls op)
        (fun o r => roles o r ∨
          ∃ item ∈ items, item.owner = o ∧ Covers rlist item.role r) := by
  induction items generalizing load ops roles with
  | nil => exact ⟨hok, h.congr (by simp) (by simp)⟩
  | cons item items ih =>
    -- a failure would have been kept up to the end
    have hfirst : (load.addRecord tables radmin item).failed = false := by
      by_contra hne
      have hkeep : ∀ (l : List Record) (load : Load), load.failed = true →
          (l.foldl (Load.addRecord tables radmin) load).failed = true := by
        intro l
        induction l with
        | nil => exact fun _ hl => hl
        | cons x l ihl =>
          intro load hl
          exact ihl _ (by simp [Load.addRecord, hl])
      simp [hkeep items _ (by simpa using hne)] at hok
    obtain ⟨hf, hone⟩ := h.addRecord ht item hfirst
    refine ⟨hf, (ih hone hok).2.congr (fun o cls op => ?_) fun o r => ?_⟩ <;>
      simp only [exists_mem_cons_iff, or_assoc]

end Load

/-- A principal that is loaded without an error has the entries that its records call for. -/
theorem loadPrincipal_holds {db : Db} (ht : tables.Right cnames db.roles) {p : DbObject}
    (hok : (loadPrincipal db tables p).failed = false) :
    ∃ radmin, (loadPrincipal db tables p).Holds radmin
      (fun o cls op => GivenAt cnames db p cls op o) (fun o r => HeldAt db p r o) := by
  unfold loadPrincipal at hok ⊢
  cases hr : tables.roleUuid regionadmin with
  | none => simp [hr] at hok
  | some radmin =>
    obtain ⟨adminRole, hadmin, hname, huuid⟩ := (ht.roleUuid _ _).1 hr
    simp only [hr] at hok ⊢
    set start : Load := { pauth := [], pgrant := [], isradmin := false, failed := false }
    set load := (db.recordsOf p).foldl (Load.addRecord tables radmin) start with hload
    have hstart : start.Holds radmin (fun _ _ _ => False) (fun _ _ => False) :=
      { pauth := by simp [start], pgrant := by simp [start], isradmin := by simp [start] }
    refine ⟨radmin, ?_⟩
    have hfailed : load.failed = false := by
      by_contra hne
      have htrue : load.failed = true := by simpa using hne
      simp [Load.addRoot, htrue] at hok
    have hrec := (hstart.addRecords ht (db.recordsOf p) (hload ▸ hfailed)).2
    -- the administrators of regions are those that hold a role which covers `regionadmin`
    have hisradmin : load.isradmin = true ↔ ∃ item ∈ db.recordsOf p, ∃ radmin ∈ db.roles,
        radmin.roleName = regionadmin ∧ Covers db.roles item.role radmin.uuid := by
      rw [hrec.isradmin]
      constructor
      · rintro ⟨o, hno | ⟨item, hitem, -, hcov⟩⟩
        · exact hno.elim
        · exact ⟨item, hitem, adminRole, hadmin, hname, huuid ▸ hcov⟩
      · rintro ⟨item, hitem, role, hrole, hrname, hcov⟩
        have hrole : tables.roleUuid regionadmin = some role.uuid :=
          (ht.roleUuid _ _).2 ⟨role, hrole, hrname, rfl⟩
        obtain rfl : role.uuid = radmin := Option.some.inj (hrole.symm.trans hr)
        exact ⟨item.owner, .inr ⟨item, hitem, rfl, hcov⟩⟩
    unfold Load.addRoot at hok ⊢
    by_cases hadm : load.isradmin = true
    · have hcond : (load.failed || !load.isradmin) = false := by simp [hfailed, hadm]
      simp only [hcond, Bool.false_eq_true, if_false] at hok ⊢
      cases he : (tables.roleUuid rootadmin).bind tables.entry with
      | none => simp [he] at hok
      | some entry =>
        obtain ⟨r, hru, hent⟩ := Option.bind_eq_some_iff.1 he
        refine (hrec.addClasses db.regions.root entry).congr (fun o cls op => ?_)
          fun o r => by simp [HeldAt]
        rw [ht.classes _ _ hent, GivenAt, ← hisradmin]
        simp only [false_or, hadm, true_and]
        refine or_congr_right (and_congr_right fun _ => ?_)
        constructor
        · intro hl
          obtain ⟨role, hrole, hrname, rfl⟩ := (ht.roleUuid _ _).1 hru
          exact ⟨role, hrole, hrname, hl⟩
        · rintro ⟨role, hrole, hrname, hl⟩
          have hrole := (ht.roleUuid _ _).2 ⟨role, hrole, hrname, rfl⟩
          rwa [Option.some.inj (hru.symm.trans hrole)]
    · have hcond : (load.failed || !load.isradmin) = true := by simp [hadm]
      simp only [hcond, if_true] at hok ⊢
      refine hrec.congr (fun o cls op => ?_) fun o r => by simp [HeldAt]
      rw [GivenAt, ← hisradmin]
      simp [hadm]

end Load

/-! ## Walking -/

section Walk

variable {F : Forest} {entry : DbObject → Option Bool} {saves stops : DbObject → Bool}
  {A : DbObject → Prop}

section

variable (hentry : ∀ x b, entry x = some b → (b = true ↔ A x))
  (hup : ∀ x, entry x = none → (A x ↔ stops x = false ∧ ∃ y, F.owner x = some y ∧ A y))

include hentry hup

lemma walkUp_iff (n : ℕ) (owner : Option DbObject) (hn : ∀ x ∈ owner, F.height x < n) :
    ((walkUp F entry saves stops n owner).2 = true ↔ ∃ x ∈ owner, A x) ∧
      ∀ v ∈ (walkUp F entry saves stops n owner).1,
        ((walkUp F entry saves stops n owner).2 = true ↔ A v) := by
  induction n generalizing owner with
  | zero =>
    cases owner with
    | none => simp [walkUp]
    | some o => exact absurd (hn o rfl) (Nat.not_lt_zero _)
  | succ n ih =>
    cases owner with
    | none => simp [walkUp]
    | some o =>
      unfold walkUp
      cases he : entry o with
      | some allow => simpa using hentry o allow he
      | none =>
        have hA := hup o he
        cases hs : stops o with
        | true => simp [hs, hA]
        | false =>
          have hlt : ∀ x ∈ F.owner o, F.height x < n := fun x hx =>
            lt_of_lt_of_le (F.owner_lt o x hx) (Nat.lt_succ_iff.1 (hn o rfl))
          obtain ⟨hall, hlist⟩ := ih (F.owner o) hlt
          have hAo : A o ↔ ∃ x ∈ F.owner o, A x := by
            rw [hA]
            simp [hs]
          refine ⟨by simpa [hAo] using hall, fun v hv => ?_⟩
          rcases mem_append.1 hv with hv | hv
          · have hvo : v = o := by
              split_ifs at hv <;> simp_all
            rw [hvo, hAo]
            exact hall
          · exact hlist v hv

/-- The walk answers for the owner, and the answer holds for all objects it returns. -/
theorem Forest.walk_iff (owner : Option DbObject) :
    ((F.walk entry saves stops owner).2 = true ↔ ∃ x ∈ owner, A x) ∧
      ∀ v ∈ (F.walk entry saves stops owner).1,
        ((F.walk entry saves stops owner).2 = true ↔ A v) := by
  refine walkUp_iff hentry hup _ owner fun x hx => ?_
  obtain rfl := Option.mem_def.1 hx
  simp

end

/-- When nothing is to be saved, nothing is returned but the answer. -/
theorem Forest.walk_fst (hsaves : ∀ x, saves x = false) (owner : Option DbObject) :
    (F.walk entry saves stops owner).1 = [] := by
  unfold Forest.walk
  generalize (owner.map F.height).getD 0 + 1 = n
  induction n generalizing owner with
  | zero => cases owner <;> simp [walkUp]
  | succ n ih =>
    cases owner with
    | none => simp [walkUp]
    | some o =>
      unfold walkUp
      cases entry o with
      | some allow => rfl
      | none =>
        cases stops o with
        | true => simp [hsaves]
        | false => simp [hsaves, ih]

end Walk

end Auth
end Unameit
