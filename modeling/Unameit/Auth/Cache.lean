import Unameit.Auth.Grant

/-!
# Auth.Cache — cached answers over whole runs of requests

The invariant of a run (`Inv`) says that the tables of every cached principal are right for the
committed state, and not touched by the transaction, unless a flag has been raised.  A request drops
all tables with a flag before it reads any.

There is one gap.  The trigger on authorization records looks at the arrays of a principal to find
out whether it is cached, but a principal without records is cached with empty arrays, and then no
flag is raised when it gets its first record.
-/

namespace Unameit
namespace Auth

open List

variable {db : Db} {p o uuid : DbObject} {cls : CString} {op : Op} {σ : State} {item : Record}

variable {cnames : DbObject → Option CString}

/-! ## Fresh tables -/

structure Fresh (cnames : DbObject → Option CString) (db : Db) (p : DbObject) (pauth : Pauth)
    (pgrant : Pgrant) : Prop where
  entry : ∀ o cls op b, pauth.lookup (o, cls, op) = some b →
    (b = true ↔ CanDo cnames db p cls op (some o))
  given : ∀ o cls op, GivenAt cnames db p cls op o → pauth.lookup (o, cls, op) = some true
  held : db.recordsOf p ≠ [] → pgrant ≠ []

lemma canDo_some :
    CanDo cnames db p cls op (some o) ↔
      ∃ x, UpTo db.regions.inCell o x ∧ GivenAt cnames db p cls op x := by
  simp [CanDo]

/-- The rule for one region, in terms of the next one. -/
theorem canDo_iff_head (hnot : ¬ GivenAt cnames db p cls op o) :
    CanDo cnames db p cls op (some o) ↔
      db.regions.isCell o = false ∧
        ∃ y, db.regions.owner o = some y ∧ CanDo cnames db p cls op (some y) := by
  simp only [canDo_some]
  constructor
  · rintro ⟨x, hox, hx⟩
    rcases UpTo.iff_head.1 hox with rfl | ⟨y, hy, hyx⟩
    · exact absurd hx hnot
    · unfold Forest.inCell at hy
      split_ifs at hy with hcell
      exact ⟨by simpa using hcell, y, hy, x, hyx, hx⟩
  · rintro ⟨hcell, y, hy, x, hyx, hx⟩
    exact ⟨x, .head (by simp [Forest.inCell, hcell, hy]) hyx, hx⟩

/-- Only the regions, the roles and the records of the principal matter. -/
theorem Fresh.congr {db' : Db} {pauth : Pauth} {pgrant : Pgrant}
    (h : Fresh cnames db p pauth pgrant) (hregions : db'.regions = db.regions)
    (hroles : db'.roles = db.roles) (hrecords : db'.recordsOf p = db.recordsOf p) :
    Fresh cnames db' p pauth pgrant := by
  have hgiven : ∀ o cls op, GivenAt cnames db' p cls op o ↔ GivenAt cnames db p cls op o := by
    intro o cls op
    simp only [GivenAt, hregions, hroles, hrecords]
  refine { entry := fun o cls op b hb => ?_, given := fun o cls op hg => ?_, held := ?_ }
  · rw [h.entry o cls op b hb, canDo_some, canDo_some]
    simp only [hregions, hgiven]
  · exact h.given o cls op ((hgiven o cls op).1 hg)
  · rw [hrecords]
    exact h.held

lemma fresh_of_load {tables : RoleTables} (ht : tables.Right cnames db.roles)
    (hok : (loadPrincipal db tables p).failed = false) :
    Fresh cnames db p (loadPrincipal db tables p).pauth (loadPrincipal db tables p).pgrant := by
  obtain ⟨radmin, hholds⟩ := loadPrincipal_holds ht hok
  have hlookup := lookup_eq_some_true_iff hholds.pauth
  refine { entry := fun o cls op b hb => ?_, given := fun o cls op hg => ?_, held := ?_ }
  · obtain ⟨rfl, hg⟩ := (hlookup (o, cls, op) b).1 hb
    exact iff_of_true rfl (canDo_some.2 ⟨o, .refl, hg⟩)
  · exact (hlookup (o, cls, op) true).2 ⟨rfl, hg⟩
  · intro hrec hnil
    obtain ⟨item, hitem⟩ := exists_mem_of_ne_nil _ hrec
    have hmem := (hholds.pgrant (item.owner, item.role) true).2
      ⟨rfl, item, hitem, rfl, .refl⟩
    simp [hnil] at hmem

lemma lookup_foldl_cons {allow : Bool} (olist : List DbObject) (table : Pauth) (o : DbObject)
    (c : CString) (e : Op) :
    (olist.foldl (fun t o => ((o, cls, op), allow) :: t) table).lookup (o, c, e) =
      if o ∈ olist ∧ c = cls ∧ e = op then some allow else table.lookup (o, c, e) := by
  induction olist generalizing table with
  | nil => simp
  | cons x olist ih =>
    rw [foldl_cons, ih, lookup_cons]
    by_cases hk : (o, c, e) = (x, cls, op)
    · obtain ⟨rfl, rfl, rfl⟩ : o = x ∧ c = cls ∧ e = op := by simpa using hk
      simp
    · have hbeq : ((o, c, e) == (x, cls, op)) = false := by simpa using hk
      have hx : (o = x ∨ o ∈ olist) ∧ c = cls ∧ e = op ↔ o ∈ olist ∧ c = cls ∧ e = op := by
        simp only [Prod.mk.injEq] at hk
        tauto
      simp only [hbeq, mem_cons, hx]

/-- With fresh tables the answer is the one of the rule, and the tables stay fresh. -/
theorem Fresh.testCando {σ : Server} (h : Fresh cnames db p (σ.pauth p) (σ.pgrant p))
    (cls : CString) (op : Op) (owner : Option DbObject) :
    ((unameitTestCando db.regions σ p cls op owner).1 = true ↔ CanDo cnames db p cls op owner) ∧
      Fresh cnames db p ((unameitTestCando db.regions σ p cls op owner).2.pauth p)
        ((unameitTestCando db.regions σ p cls op owner).2.pgrant p) := by
  set walk := db.regions.walk (fun o => (σ.pauth p).lookup (o, cls, op)) (fun _ => true)
    db.regions.isCell owner with hwalk
  obtain ⟨hanswer, holist⟩ : (walk.2 = true ↔ ∃ x ∈ owner, CanDo cnames db p cls op (some x)) ∧
      ∀ v ∈ walk.1, (walk.2 = true ↔ CanDo cnames db p cls op (some v)) :=
    Forest.walk_iff (fun x b hb => h.entry x cls op b hb)
      (fun x hx => canDo_iff_head fun hg => by simp [h.given x cls op hg] at hx) owner
  have hpauth : (unameitTestCando db.regions σ p cls op owner).2.pauth p =
      walk.1.foldl (fun t o => ((o, cls, op), walk.2) :: t) (σ.pauth p) := by
    simp only [unameitTestCando, ← hwalk, Function.update_self]
  refine ⟨?_, ?_⟩
  · refine hanswer.trans ?_
    simp [CanDo]
  · rw [hpauth]
    refine { entry := fun o c e b hb => ?_, given := fun o c e hg => ?_, held := h.held }
    · rw [lookup_foldl_cons] at hb
      split_ifs at hb with hnew
      · obtain ⟨ho, rfl, rfl⟩ := hnew
        obtain rfl := Option.some.inj hb
        exact holist o ho
      · exact h.entry o c e b hb
    · rw [lookup_foldl_cons]
      split_ifs with hnew
      · obtain ⟨ho, rfl, rfl⟩ := hnew
        rw [(holist o ho).2 (canDo_some.2 ⟨o, .refl, hg⟩)]
      · exact h.given o c e hg

/-! ## The invariant -/

def Quiet (σ : Server) (p : DbObject) : Prop :=
  σ.stale.regions = false ∧ σ.stale.roles = false ∧ p ∈ σ.pcache ∧ p ∉ σ.stale.principals

structure Inv (cnames : DbObject → Option CString) (σ : State) : Prop where
  sound : SoundRoles σ.committed.roles
  nodup : σ.server.pcache.Nodup
  principal : ∀ p ∈ σ.principal, p ∈ σ.server.pcache
  regions : σ.server.stale.regions = false → σ.working.regions = σ.committed.regions
  roles : σ.server.stale.roles = false →
    σ.working.roles = σ.committed.roles ∧ σ.server.tables.Right cnames σ.committed.roles
  records : ∀ p, Quiet σ.server p → σ.working.recordsOf p = σ.committed.recordsOf p
  fresh : ∀ p, Quiet σ.server p →
    Fresh cnames σ.committed p (σ.server.pauth p) (σ.server.pgrant p)

lemma Inv.start (hs : SoundRoles db.roles) : Inv cnames (State.start db) := by
  refine { sound := hs, nodup := nodup_nil, principal := by simp [State.start],
           regions := fun _ => rfl, roles := ?_, records := fun _ _ => rfl, fresh := ?_ }
  · intro h
    simp [State.start, Server.start] at h
  · rintro p ⟨-, h, -⟩
    simp [State.start, Server.start] at h

/-! ### The start of a request -/

lemma mem_foldl_erase {l : List DbObject} (hn : l.Nodup) (drop : List DbObject) :
    (drop.foldl List.erase l).Nodup ∧
      ∀ p, p ∈ drop.foldl List.erase l ↔ p ∈ l ∧ p ∉ drop := by
  induction drop generalizing l with
  | nil => simpa using hn
  | cons q drop ih =>
    obtain ⟨hn', hmem⟩ := ih (hn.erase q)
    refine ⟨hn', fun p => ?_⟩
    rw [foldl_cons, hmem, hn.mem_erase_iff, mem_cons]
    tauto

/-- What the server has when a request begins: no flags, right tables of roles, and fresh tables
for all cached principals. -/
structure Ready (cnames : DbObject → Option CString) (db : Db) (σ : Server) : Prop where
  stale : σ.stale = Stale.none
  nodup : σ.pcache.Nodup
  tables : σ.tables.Right cnames db.roles
  fresh : ∀ p ∈ σ.pcache, Fresh cnames db p (σ.pauth p) (σ.pgrant p)

lemma Ready.of_inv (h : Inv cnames σ) (hstale : σ.server.stale = Stale.none) :
    Ready cnames σ.committed σ.server where
  stale := hstale
  nodup := h.nodup
  tables := (h.roles (by simp [hstale, Stale.none])).2
  fresh p hp := h.fresh p (by simp [Quiet, hstale, Stale.none, hp])

/-- Dropping what the flags name leaves fresh tables. -/
theorem Inv.flush (h : Inv cnames σ) :
    Ready cnames σ.committed (unameitFlushAuthCache cnames σ.committed σ.server) := by
  unfold unameitFlushAuthCache
  by_cases hall : (σ.server.stale.regions || σ.server.stale.roles) = true
  · rw [if_pos hall]
    refine { stale := rfl, nodup := nodup_nil, tables := ?_, fresh := by simp }
    cases hr : σ.server.stale.roles with
    | true => exact h.sound.unameitReloadRoles_right cnames
    | false => exact (h.roles hr).2
  · rw [if_neg hall]
    simp only [Bool.or_eq_true, not_or, Bool.not_eq_true] at hall
    obtain ⟨hn, hmem⟩ := mem_foldl_erase h.nodup σ.server.stale.principals
    refine { stale := rfl, nodup := hn, tables := (h.roles hall.2).2, fresh := fun p hp => ?_ }
    obtain ⟨hp, hnot⟩ := (hmem p).1 hp
    simp only [hnot, if_false]
    exact h.fresh p ⟨hall.1, hall.2, hp, hnot⟩

/-- The principal takes its place at the front of the cache. -/
theorem Ready.enterCache (σ : Server) (hstale : σ.stale = Stale.none) (hn : σ.pcache.Nodup)
    (hp : p ∉ σ.pcache) (ht : σ.tables.Right cnames db.roles)
    (hfresh : ∀ q ∈ p :: σ.pcache, Fresh cnames db q (σ.pauth q) (σ.pgrant q)) :
    Ready cnames db (enterCache σ p) ∧ p ∈ (enterCache σ p).pcache := by
  unfold Auth.enterCache
  cases hlru : σ.pcache[99]? with
  | none =>
    refine ⟨{ stale := hstale, nodup := nodup_cons.2 ⟨hp, hn⟩, tables := ht,
              fresh := hfresh }, List.mem_cons_self⟩
  | some lru =>
    obtain ⟨hlen, hget⟩ := List.getElem?_eq_some_iff.1 hlru
    have herase : σ.pcache.eraseIdx 99 = σ.pcache.erase lru := by
      rw [← hget, hn.erase_getElem]
    have hpe : p ∉ σ.pcache.eraseIdx 99 := fun h => hp ((eraseIdx_sublist ..).subset h)
    have hne : ∀ q ∈ p :: σ.pcache.eraseIdx 99, q ≠ lru ∧ q ∈ p :: σ.pcache := by
      intro q hq
      rcases mem_cons.1 hq with rfl | hq
      · refine ⟨?_, mem_cons_self⟩
        rintro rfl
        exact hp (mem_of_getElem? hlru)
      · rw [herase, hn.mem_erase_iff] at hq
        exact ⟨hq.1, mem_cons_of_mem _ hq.2⟩
    refine ⟨{ stale := hstale, nodup := nodup_cons.2 ⟨hpe, hn.eraseIdx 99⟩, tables := ht,
              fresh := fun q hq => ?_ }, mem_cons_self⟩
    obtain ⟨hq, hmem⟩ := hne q hq
    simp only [Function.update_of_ne hq]
    exact hfresh q hmem

/-- Whether it succeeds or not, loading leaves fresh tables; when it succeeds the principal is
cached. -/
theorem Ready.usePrincipal {σ : Server} (h : Ready cnames db σ) (p : DbObject) :
    Ready cnames db (usePrincipal db σ p).1 ∧
      ((usePrincipal db σ p).2 = true → p ∈ (usePrincipal db σ p).1.pcache) := by
  unfold Auth.usePrincipal
  split_ifs with hp hfailed
  · have hmem : ∀ q, q ∈ p :: σ.pcache.erase p → q ∈ σ.pcache := by
      intro q hq
      rcases mem_cons.1 hq with rfl | hq
      · exact hp
      · exact mem_of_mem_erase hq
    refine ⟨{ stale := h.stale, nodup := ?_, tables := h.tables, fresh := ?_ }, by simp⟩
    · exact nodup_cons.2 ⟨fun hq => (h.nodup.mem_erase_iff.1 hq).1 rfl, h.nodup.erase p⟩
    · exact fun q hq => h.fresh q (hmem q hq)
  · refine ⟨{ stale := h.stale, nodup := h.nodup, tables := h.tables, fresh := ?_ }, by simp⟩
    intro q hq
    have hne : q ≠ p := fun he => hp (he ▸ hq)
    simp only [Server.setTables, Function.update_of_ne hne]
    exact h.fresh q hq
  · refine (Ready.enterCache (σ.setTables p (loadPrincipal db σ.tables p)) h.stale h.nodup hp
      h.tables fun q hq => ?_).imp_right fun hmem _ => hmem
    by_cases hqp : q = p
    · subst hqp
      simp only [Server.setTables, Function.update_self]
      exact fresh_of_load h.tables (by simpa using hfailed)
    · simp only [Server.setTables, Function.update_of_ne hqp]
      exact h.fresh q ((mem_cons.1 hq).resolve_left hqp)

lemma Inv.of_ready {σ : Server} (hs : SoundRoles db.roles) (h : Ready cnames db σ)
    {principal : Option DbObject} (hp : ∀ p ∈ principal, p ∈ σ.pcache) :
    Inv cnames { committed := db, working := db, server := σ, principal := principal } where
  sound := hs
  nodup := h.nodup
  principal := hp
  regions _ := rfl
  roles _ := ⟨rfl, h.tables⟩
  records _ _ := rfl
  fresh p hq := h.fresh p hq.2.2.1

/-- Every request of a principal begins with a server that is ready. -/
theorem Inv.begin_ready (h : Inv cnames σ) (p : DbObject) :
    Ready cnames σ.committed (unameitBegin cnames σ (some p)).server ∧
      Inv cnames (unameitBegin cnames σ (some p)) := by
  have hready : Ready cnames σ.committed (if σ.server.stale = Stale.none then σ.server
      else unameitFlushAuthCache cnames σ.committed σ.server) := by
    split_ifs with hstale
    · exact .of_inv h hstale
    · exact h.flush
  obtain ⟨hready, hmem⟩ := hready.usePrincipal p
  refine ⟨hready, .of_ready h.sound hready fun q hq => ?_⟩
  split_ifs at hq with hok
  · obtain rfl := Option.some.inj hq
    exact hmem hok
  · simp at hq

/-! ### The other events -/

/-- The superuser leaves the caches alone. -/
theorem Inv.begin_superuser (h : Inv cnames σ) :
    Inv cnames (unameitBegin cnames σ none) where
  sound := h.sound
  nodup := h.nodup
  principal := by simp [unameitBegin]
  regions _ := rfl
  roles hr := ⟨rfl, (h.roles hr).2⟩
  records _ _ := rfl
  fresh := h.fresh

lemma Inv.cando (h : Inv cnames σ) (hp : σ.principal = some p) (cls : CString) (op : Op)
    (owner : Option DbObject) :
    Inv cnames { σ with
      server := (unameitTestCando σ.working.regions σ.server p cls op owner).2 } where
  sound := h.sound
  nodup := h.nodup
  principal := h.principal
  regions := h.regions
  roles := h.roles
  records := h.records
  fresh q hq := by
    by_cases hqp : q = p
    · subst hqp
      rw [h.regions hq.1]
      exact ((h.fresh q hq).testCando cls op owner).2
    · simp only [unameitTestCando, Function.update_of_ne hqp]
      exact h.fresh q hq

/-- The principals whose arrays exist are flagged. -/
theorem foldl_uncachePrincipal (ps : List DbObject) (σ : Server) :
    ∃ l, ps.foldl uncachePrincipal σ = σ.flag l ∧
      ∀ p, p ∈ l ↔ p ∈ ps ∧ (σ.pauth p ≠ [] ∨ σ.pgrant p ≠ []) := by
  induction ps generalizing σ with
  | nil => exact ⟨[], rfl, by simp⟩
  | cons q ps ih =>
    by_cases hq : σ.pauth q ≠ [] ∨ σ.pgrant q ≠ []
    · obtain ⟨l, heq, hl⟩ := ih (σ.flag [q])
      refine ⟨l ++ [q], ?_, fun p => ?_⟩
      · rw [foldl_cons, uncachePrincipal, if_pos hq, heq]
        simp [Server.flag]
      · rw [mem_append, hl, mem_singleton, mem_cons]
        constructor
        · rintro (⟨hp, harr⟩ | rfl)
          · exact ⟨.inr hp, harr⟩
          · exact ⟨.inl rfl, hq⟩
        · rintro ⟨rfl | hp, harr⟩
          · exact .inr rfl
          · exact .inl ⟨hp, harr⟩
    · obtain ⟨l, heq, hl⟩ := ih σ
      refine ⟨l, ?_, fun p => ?_⟩
      · rw [foldl_cons, uncachePrincipal, if_neg hq, heq]
      · rw [hl, mem_cons]
        refine ⟨fun ⟨hp, harr⟩ => ⟨.inr hp, harr⟩, ?_⟩
        rintro ⟨rfl | hp, harr⟩
        · exact absurd harr hq
        · exact ⟨hp, harr⟩

/-- A change to the records of the old and the new principal, each of which is flagged if it is
cached and quiet. -/
theorem Inv.changeRecords (h : Inv cnames σ) {old new : Option DbObject}
    {records : List (DbObject × Record)} (hsame : ∀ p, p ∉ old → p ∉ new →
      { σ.working with records := records }.recordsOf p = σ.working.recordsOf p)
    (hflag : ∀ p, p ∈ old ∨ p ∈ new → Quiet σ.server p →
      σ.server.pauth p ≠ [] ∨ σ.server.pgrant p ≠ []) :
    Inv cnames { σ with
      working := { σ.working with records := records }
      server := unameitUncacheAuthorization σ.server old new } := by
  obtain ⟨l, heq, hl⟩ := foldl_uncachePrincipal (old.toList ++ new.toList) σ.server
  rw [unameitUncacheAuthorization, heq]
  simp only [mem_append, Option.mem_toList] at hl
  have hquiet : ∀ p, Quiet (σ.server.flag l) p → Quiet σ.server p ∧ p ∉ l := by
    rintro p ⟨hreg, hrol, hp, hnot⟩
    simp only [Server.flag, mem_append, not_or] at hnot
    exact ⟨⟨hreg, hrol, hp, hnot.2⟩, hnot.1⟩
  refine { sound := h.sound, nodup := h.nodup, principal := h.principal, regions := h.regions,
           roles := h.roles, records := fun p hp => ?_,
           fresh := fun p hp => h.fresh p (hquiet p hp).1 }
  obtain ⟨hp, hnot⟩ := hquiet p hp
  have hout : ¬ (p ∈ old ∨ p ∈ new) := fun hmem => hnot ((hl p).2 ⟨hmem, hflag p hmem hp⟩)
  rw [not_or] at hout
  rw [hsame p hout.1 hout.2]
  exact h.records p hp

lemma recordsOf_setRecord {new : Option Record} (hitem : db.records.lookup uuid = some item)
    (hold : p ≠ item.principal) (hnew : ∀ r ∈ new, p ≠ r.principal) :
    { db with records := setRecord uuid new db.records }.recordsOf p = db.recordsOf p := by
  unfold Db.recordsOf
  generalize db.records = records at hitem
  induction records with
  | nil => simp at hitem
  | cons entry records ih =>
    unfold setRecord
    split_ifs with he
    · obtain ⟨key, value⟩ := entry
      obtain rfl : key = uuid := he
      obtain rfl : value = item := by simpa using hitem
      cases new with
      | none => simp [hold.symm]
      | some r => simp [hold.symm, (hnew r rfl).symm]
    · have hbeq : (uuid == entry.1) = false := by simpa using Ne.symm he
      rw [lookup_cons, hbeq] at hitem
      simp only [map_cons, filter_cons, ih hitem]

lemma mem_recordsOf_of_lookup (hitem : db.records.lookup uuid = some item) :
    item ∈ db.recordsOf item.principal := by
  obtain ⟨l₁, l₂, heq, -⟩ := lookup_eq_some_iff.1 hitem
  simp [Db.recordsOf, heq]

/-- A principal with records has an array that can be noticed. -/
theorem Inv.held_of_lookup (h : Inv cnames σ) (hitem : σ.working.records.lookup uuid = some item)
    (hq : Quiet σ.server item.principal) :
    σ.server.pauth item.principal ≠ [] ∨ σ.server.pgrant item.principal ≠ [] := by
  refine .inr ((h.fresh _ hq).held ?_)
  rw [← h.records _ hq]
  exact ne_nil_of_mem (mem_recordsOf_of_lookup hitem)

lemma Inv.commit (h : Inv cnames σ) (hs : SoundRoles σ.working.roles) :
    Inv cnames { σ with committed := σ.working } where
  sound := hs
  nodup := h.nodup
  principal := h.principal
  regions _ := rfl
  roles hr := by
    obtain ⟨heq, ht⟩ := h.roles hr
    exact ⟨rfl, heq ▸ ht⟩
  records _ _ := rfl
  fresh p hp := (h.fresh p hp).congr (h.regions hp.1) (h.roles hp.2.1).1 (h.records p hp)

/-! ## Runs -/

/-- The principal is not cached, or one of its arrays exists, so that the trigger on authorization
records can tell that it is cached. -/
def Noticeable (σ : Server) (p : DbObject) : Prop :=
  p ∈ σ.pcache → σ.pauth p ≠ [] ∨ σ.pgrant p ≠ []

/-- No record is given to a principal that is cached with empty arrays. -/
def Noticed (σ : State) : Event → Prop
  | .createAuthorization _ item => Noticeable σ.server item.principal
  | .updateAuthorization _ new => ∀ p ∈ new.principal, Noticeable σ.server p
  | _ => True

lemma Inv.step (h : Inv cnames σ) (event : Event) (hlegal : Legal σ event)
    (hnoticed : Noticed σ event) : Inv cnames (step cnames σ event) := by
  cases event with
  | request p =>
    cases p with
    | none => exact h.begin_superuser
    | some p => exact (h.begin_ready p).2
  | cando cls op owner =>
    cases hp : σ.principal with
    | none => simpa only [Auth.step, hp] using h
    | some p => simpa only [Auth.step, hp] using h.cando hp cls op owner
  | grant role owner =>
    cases hp : σ.principal with
    | none => simpa only [Auth.step, hp] using h
    | some p =>
      simp only [Auth.step, hp, testGrant_server]
      rw [← hp]
      exact h
  | createAuthorization uuid item =>
    refine h.changeRecords (fun p _ hp => ?_) fun p hp hq => ?_
    · have hne : item.principal ≠ p := fun he => hp (he ▸ rfl)
      simp [Db.recordsOf, hne]
    · obtain rfl : item.principal = p := by simpa using hp
      exact hnoticed hq.2.2.1
  | updateAuthorization uuid new =>
    cases hitem : σ.working.records.lookup uuid with
    | none => simpa only [Auth.step, hitem] using h
    | some item =>
      simp only [Auth.step, hitem]
      split_ifs with hnone
      · exact h
      · refine h.changeRecords (fun p hold hnew => ?_) fun p hp hq => ?_
        · have hold : p ≠ item.principal := fun he => hold (he ▸ rfl)
          refine recordsOf_setRecord hitem hold fun r hr => ?_
          obtain rfl : new.apply item = r := Option.some.inj hr
          simp only [Values.apply]
          cases hprin : new.principal with
          | none => exact hold
          | some q => exact fun he => hnew (by rw [hprin, he]; rfl)
        · rcases hp with hp | hp
          · obtain rfl : item.principal = p := Option.some.inj hp
            exact h.held_of_lookup hitem hq
          · exact hnoticed p hp hq.2.2.1
  | deleteAuthorization uuid =>
    cases hitem : σ.working.records.lookup uuid with
    | none => simpa only [Auth.step, hitem] using h
    | some item =>
      simp only [Auth.step, hitem]
      refine h.changeRecords (fun p hold _ => ?_) fun p hp hq => ?_
      · exact recordsOf_setRecord hitem (fun he => hold (he ▸ rfl)) (by simp)
      · obtain rfl : item.principal = p := by simpa using hp
        exact h.held_of_lookup hitem hq
  | changeRoles rlist =>
    refine { sound := h.sound, nodup := h.nodup, principal := h.principal,
             regions := h.regions, roles := by simp [Auth.step, unameitUncacheAuthRole],
             records := fun p hp => absurd hp.2.1 (by simp [Auth.step, unameitUncacheAuthRole]),
             fresh := fun p hp => absurd hp.2.1 (by simp [Auth.step, unameitUncacheAuthRole]) }
  | changeRegions F admin =>
    refine { sound := h.sound, nodup := h.nodup, principal := h.principal,
             regions := by simp [Auth.step, unameitUncacheAuthRegion], roles := h.roles,
             records := fun p hp => absurd hp.1 (by simp [Auth.step, unameitUncacheAuthRegion]),
             fresh := fun p hp => absurd hp.1 (by simp [Auth.step, unameitUncacheAuthRegion]) }
  | commit => exact h.commit hlegal
  | rollback =>
    exact { sound := h.sound, nodup := h.nodup, principal := h.principal,
            regions := fun _ => rfl, roles := fun hr => ⟨rfl, (h.roles hr).2⟩,
            records := fun _ _ => rfl, fresh := h.fresh }

lemma Inv.run (h : Inv cnames σ) {events : List Event}
    (hok : Along cnames (fun σ e => Legal σ e ∧ Noticed σ e) σ events) :
    Inv cnames (run cnames σ events) := by
  induction events generalizing σ with
  | nil => exact h
  | cons event events ih => exact ih (h.step event hok.1.1 hok.1.2) hok.2

lemma Ready.testCando {σ : Server} (h : Ready cnames db σ) (hp : p ∈ σ.pcache) (cls : CString)
    (op : Op) (owner : Option DbObject) :
    Ready cnames db (unameitTestCando db.regions σ p cls op owner).2 := by
  refine { stale := h.stale, nodup := h.nodup, tables := h.tables, fresh := fun q hq => ?_ }
  by_cases hqp : q = p
  · subst hqp
    exact ((h.fresh q hp).testCando cls op owner).2
  · simp only [unameitTestCando, Function.update_of_ne hqp]
    exact h.fresh q hq

def askCandos (F : Forest) (σ : Server) (p : DbObject)
    (questions : List (CString × Op × Option DbObject)) : Server :=
  questions.foldl (fun σ q => (unameitTestCando F σ p q.1 q.2.1 q.2.2).2) σ

lemma Ready.askCandos {σ : Server} (h : Ready cnames db σ) (hp : p ∈ σ.pcache)
    (questions : List (CString × Op × Option DbObject)) :
    Ready cnames db (askCandos db.regions σ p questions) ∧
      p ∈ (askCandos db.regions σ p questions).pcache := by
  induction questions generalizing σ with
  | nil => exact ⟨h, hp⟩
  | cons q questions ih => exact ih (h.testCando hp q.1 q.2.1 q.2.2) hp

/-- **Transparency of the caches.**  In a run in which no record is given to a principal that is
cached with empty arrays, a request that is accepted gets the answers of the rule for the committed
state, whatever it has asked before. -/
theorem testCando_of_run (cnames : DbObject → Option CString) (db : Db)
    (hs : SoundRoles db.roles) (events : List Event)
    (hok : Along cnames (fun σ e => Legal σ e ∧ Noticed σ e) (State.start db) events)
    (p : DbObject) :
    let σ := run cnames (State.start db) (events ++ [.request (some p)])
    σ.principal = some p →
      ∀ (questions : List (CString × Op × Option DbObject)) (cls : CString) (op : Op)
        (owner : Option DbObject),
        (unameitTestCando σ.committed.regions (askCandos σ.committed.regions σ.server p questions)
          p cls op owner).1 = true ↔ CanDo cnames σ.committed p cls op owner := by
  intro σ hp questions cls op owner
  have hinv : Inv cnames (run cnames (State.start db) events) := (Inv.start hs).run hok
  have hσ : σ = unameitBegin cnames (run cnames (State.start db) events) (some p) := by
    simp only [σ, run, foldl_append, foldl_cons, foldl_nil, step]
  obtain ⟨hready, hinv'⟩ := hinv.begin_ready p
  rw [← hσ] at hready hinv'
  have hcommitted : σ.committed = (run cnames (State.start db) events).committed := by
    rw [hσ]
    rfl
  rw [← hcommitted] at hready
  obtain ⟨hready, hmem⟩ := hready.askCandos (hinv'.principal p hp) questions
  exact ((hready.fresh p hmem).testCando cls op owner).1

/-! ## A record that is not noticed -/

def oneCell (records : List (DbObject × Record)) : Db where
  regions :=
    { owner := fun _ => none, isCell := fun o => o = 0, root := 0, height := fun _ => 0,
      owner_lt := by simp }
  roles := [{ uuid := 10, roleName := regionadmin, owner := none, classes := fun _ => [30] },
    { uuid := 11, roleName := rootadmin, owner := none, classes := fun _ => [] }]
  records := records

def printer : CString := "printer".toList

def onePrinter (cls : DbObject) : Option CString := if cls = 30 then some printer else none

lemma oneCell_sound (records : List (DbObject × Record)) :
    SoundRoles (oneCell records).roles where
  uuids := by simp [oneCell]
  names := (by decide : [regionadmin, rootadmin].Nodup)
  owners := by simp [oneCell]
  tree := ⟨fun _ => 0, by simp [oneCell]⟩

def adminRecord : Record where
  principal := 5
  role := 10
  owner := 0

def lateRecord : List Event :=
  [.request (some 5), .request none, .createAuthorization 20 adminRecord, .commit]

/-- With a record from the start, a second one is noticed. -/
theorem testCando_of_run_lateRecord :
    let σ := run onePrinter (State.start (oneCell [(21, adminRecord)]))
      (lateRecord ++ [.request (some 5)])
    (unameitTestCando σ.committed.regions (askCandos σ.committed.regions σ.server 5 []) 5 printer
        .create (some 0)).1 = true ↔
      CanDo onePrinter σ.committed 5 printer .create (some 0) := by
  have hnoticed : Noticed (run onePrinter (State.start (oneCell [(21, adminRecord)]))
      [.request (some 5), .request none]) (.createAuthorization 20 adminRecord) :=
    fun _ => .inr (by decide)
  exact testCando_of_run onePrinter (oneCell [(21, adminRecord)]) (oneCell_sound _) lateRecord
    ⟨⟨trivial, trivial⟩, ⟨trivial, trivial⟩, ⟨trivial, hnoticed⟩, ⟨oneCell_sound [], trivial⟩,
      trivial⟩ 5 (by decide) [] printer .create (some 0)

/-- The first record of a cached principal has no effect at its next request. -/
theorem testCando_misses_record :
    ∃ (db : Db) (events : List Event) (p : DbObject),
      SoundRoles db.roles ∧ Along onePrinter Legal (State.start db) events ∧
      let σ := run onePrinter (State.start db) (events ++ [.request (some p)])
      σ.principal = some p ∧
        (unameitTestCando σ.committed.regions σ.server p printer .create (some 0)).1 = false ∧
        CanDo onePrinter σ.committed p printer .create (some 0) := by
  refine ⟨oneCell [], lateRecord, 5, oneCell_sound [],
    ⟨trivial, trivial, trivial, oneCell_sound [], trivial⟩, by decide, by decide, ?_⟩
  refine canDo_some.2 ⟨0, .refl, .inl ⟨adminRecord, ?_, rfl, ?_⟩⟩
  · decide
  · exact ⟨_, mem_cons_self, .refl, 30, by decide, by decide⟩

end Auth
end Unameit
