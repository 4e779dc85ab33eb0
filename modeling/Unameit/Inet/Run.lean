import Unameit.Inet.Sound

/-!
# Inet.Run — runs of insertions and deletions

A `Config` is the state of a family together with its content, and `step` is one call of
`Inet_Insert_Object` or `Inet_Delete_Object`.  The user visible attributes of an object are changed
before the family hears about it, so that both operations start by setting them.  `step_cases` is
the one place that takes a step apart, and `Valid` is what holds in every state of an aligned run.
-/

namespace Unameit
namespace Inet

open Function (update update_self update_of_ne)
open Option
open BitStream (Agree)

/-! ## Steps -/

structure Config where
  state : State
  dir : Directory

def Config.empty : Config :=
  ⟨State.empty, fun _ => none⟩

variable {b o : DbObject} {fam : Family} {σ σ' : Config} {t t' : Tree} {p : InetPrefix}
  {info : InetInfo} {st : State} {dir : Directory} {net : Option DbObject} {now : ℕ}
  {attributes : Option InetInfo} {e : Entry}

lemma Config.not_covers_empty {a : BitStream} : ¬ Config.empty.state.tree.Covers a b := by
  intro hb
  induction hb with
  | root hr => cases hr
  | sub _ _ ih => exact ih

/-- Insert an object with its new attributes, or delete it; in a move the attributes of the object
are already the new ones when it is deleted at its old prefix. -/
inductive Op
  | insert (o : DbObject) (info : InetInfo)
  | delete (o : DbObject) (now : ℕ) (attributes : Option InetInfo)

def Op.object : Op → DbObject
  | .insert o _ => o
  | .delete o _ _ => o

def State.setInfo (st : State) (o : DbObject) (info : Option InetInfo) : State :=
  { st with
    net := { st.net with
      info := update st.net.info o info } }

def step (fam : Family) (σ : Config) : Op → Option Config
  | .insert o info =>
    match σ.dir o, inetInfoPrefix fam σ.state.tree o info with
    | none, .ok p =>
      some ⟨inetInsert fam (σ.state.setInfo o (some info)) p info.objType o,
        update σ.dir o (some ⟨info.objType, p⟩)⟩
    | _, _ => none
  | .delete o now attributes =>
    match σ.dir o with
    | none => none
    | some e =>
      (inetDelete fam (σ.state.setInfo o attributes) e.pfx e.type o now).map fun st =>
        ⟨st, update σ.dir o none⟩

def runOps (fam : Family) (σ : Config) (ops : List Op) : Option Config :=
  ops.foldlM (step fam) σ

variable {op : Op}

lemma runOps_cons {ops : List Op} (h : runOps fam σ (op :: ops) = some σ') :
    ∃ σ₁, step fam σ op = some σ₁ ∧ runOps fam σ₁ ops = some σ' :=
  bind_eq_some_iff.1 h

/-- The operation only touches blocks at which the prefix is aligned. -/
def Op.Aligned (fam : Family) (σ : Config) : Op → Prop
  | .insert o info => ∀ p, inetInfoPrefix fam σ.state.tree o info = .ok p →
      p.AlignedAt p.bits ∨ ∃ b, Reaches fam σ.state.tree p b
  | .delete o _ _ => ∀ e, σ.dir o = some e →
      DeleteSafe σ.state.tree (fun b a => σ.state.tree.Covers a b) σ.dir o e

/-- Runs whose operations all meet a condition on the state they start from. -/
abbrev Run (fam : Family) (ok : Config → Op → Prop) : Config → Config → Prop :=
  Relation.ReflTransGen fun σ σ' => ∃ op, ok σ op ∧ step fam σ op = some σ'

/-! ## The attributes of filed items -/

/-- Every item is filed as what its attributes say, at the prefix that they give. -/
def Described (fam : Family) (σ : Config) : Prop :=
  ∀ o e, σ.dir o = some e → ∃ info, σ.state.net.info o = some info ∧ info.objType = e.type ∧
    inetInfoPrefix fam σ.state.tree o info = .ok e.pfx

lemma inetNodePrefix_congr {aname address : CString}
    (h : inetNodePrefix fam t o aname address = .ok p) (huniv : t'.universeNet ≠ none) :
    inetNodePrefix fam t' o aname address = .ok p := by
  unfold inetNodePrefix at *
  rw [if_neg huniv]
  split at h
  · cases h
  · exact h

/-- The prefix of an item does not depend on the state, once there is a universe net. -/
theorem inetInfoPrefix_congr (h : inetInfoPrefix fam t o info = .ok p)
    (huniv : t'.universeNet ≠ none) : inetInfoPrefix fam t' o info = .ok p := by
  cases info with
  | node address => exact inetNodePrefix_congr h huniv
  | net start bits mask type =>
    have hroot : ¬ (t'.universeNet = none ∧ bits ≠ 0) := fun hc => huniv hc.1
    simp only [inetInfoPrefix, inetNetPrefix] at h ⊢
    rw [if_neg hroot]
    split at h
    · cases h
    · rename_i hbits
      rw [if_neg hbits]
      split at h
      · cases h
      · exact h
  | range start last type devices =>
    simp only [inetInfoPrefix, inetRangePrefix] at h ⊢
    split at h
    · cases h
    · rename_i hord
      rw [if_neg hord]
      cases hstart : inetNodePrefix fam t o fam.rangeStartAttribute start with
      | error err => simp [hstart, bind, Except.bind] at h
      | ok q =>
        cases hlast : inetNodePrefix fam t o fam.rangeEndAttribute last with
        | error err => simp [hstart, hlast, bind, Except.bind] at h
        | ok q' =>
          rw [inetNodePrefix_congr hstart huniv, inetNodePrefix_congr hlast huniv]
          rw [hstart, hlast] at h
          exact h

structure Valid (fam : Family) (σ : Config) : Prop where
  sound : Sound fam σ.state σ.dir
  described : Described fam σ

lemma WellFormed.setInfo (h : WellFormed fam st dir) (o : DbObject) (info : Option InetInfo) :
    WellFormed fam (st.setInfo o info) dir :=
  ⟨h.blocks, h.universe_first, h.accepted, h.filed, h.filed_only, h.listed_once, h.parent,
    h.storage⟩

lemma Sound.setInfo (h : Sound fam st dir) (o : DbObject) (info : Option InetInfo) :
    Sound fam (st.setInfo o info) dir :=
  { wf := h.wf.setInfo o info
    parent := h.parent
    unfiled := h.unfiled
    block := h.block
    finite := h.finite
    ledger := ⟨h.ledger.counts, h.ledger.ranges⟩ }

lemma Sound.universe_ne_none (h : Sound fam st dir) : st.tree.universeNet ≠ none := by
  rcases h.wf.universe_first with ⟨_, u, _, hu, _⟩
  rw [hu]
  exact some_ne_none u

/-! ## What a step does -/

structure InsertStep (fam : Family) (σ σ' : Config) (o : DbObject) (info : InetInfo)
    (p : InetPrefix) (b : DbObject) (net : Option DbObject) : Prop where
  unfiled : σ.dir o = none
  accepted : inetInfoPrefix fam σ.state.tree o info = .ok p
  dir : σ'.dir = update σ.dir o (some ⟨info.objType, p⟩)
  enrolled : Enrolled fam (σ.state.setInfo o (some info)) σ'.state
    (fun b a => σ.state.tree.Covers a b) (fun b a => σ'.state.tree.Covers a b) σ.dir
    ⟨info.objType, p⟩ o b net (joining fam (σ.state.setInfo o (some info)) p info.objType)

structure DeleteStep (fam : Family) (σ σ' : Config) (o : DbObject) (now : ℕ)
    (attributes : Option InetInfo) (e : Entry) (b : DbObject) : Prop where
  filed : σ.dir o = some e
  dir : σ'.dir = update σ.dir o none
  withdrawn : Withdrawn fam (σ.state.setInfo o attributes) σ'.state
    (fun b a => σ.state.tree.Covers a b) (fun b a => σ'.state.tree.Covers a b) σ.dir e o b now

section Dir

variable {x : DbObject}

lemma InsertStep.dir_self (hs : InsertStep fam σ σ' o info p b net) :
    σ'.dir o = some ⟨info.objType, p⟩ := by
  rw [hs.dir]
  exact update_self _ _ _

lemma InsertStep.dir_of_ne (hs : InsertStep fam σ σ' o info p b net) (hx : x ≠ o) :
    σ'.dir x = σ.dir x := by
  rw [hs.dir]
  exact update_of_ne hx _ _

lemma DeleteStep.dir_self (hs : DeleteStep fam σ σ' o now attributes e b) : σ'.dir o = none := by
  rw [hs.dir]
  exact update_self _ _ _

end Dir

section Cases

lemma step_insert (hstep : step fam σ (.insert o info) = some σ') :
    ∃ p, σ.dir o = none ∧ inetInfoPrefix fam σ.state.tree o info = .ok p ∧
      σ' = ⟨inetInsert fam (σ.state.setInfo o (some info)) p info.objType o,
        update σ.dir o (some ⟨info.objType, p⟩)⟩ := by
  simp only [step] at hstep
  split at hstep
  · rename_i p hnew hp
    exact ⟨p, hnew, hp, (some.inj hstep).symm⟩
  · cases hstep

lemma step_delete (hstep : step fam σ (.delete o now attributes) = some σ') :
    ∃ e st', σ.dir o = some e ∧
      inetDelete fam (σ.state.setInfo o attributes) e.pfx e.type o now = some st' ∧
      σ' = ⟨st', update σ.dir o none⟩ := by
  simp only [step] at hstep
  split at hstep
  · cases hstep
  · rename_i e he
    rcases map_eq_some_iff.1 hstep with ⟨st', hdel, heq⟩
    exact ⟨e, st', he, hdel, heq.symm⟩

/-- A step from a sound family is an insertion or a deletion that leads to a sound family. -/
theorem step_cases (h : Sound fam σ.state σ.dir) (halign : op.Aligned fam σ)
    (hstep : step fam σ op = some σ') :
    Sound fam σ'.state σ'.dir ∧
      ((∃ o info p b net, op = .insert o info ∧ InsertStep fam σ σ' o info p b net) ∨
        ∃ o now attributes e b, op = .delete o now attributes ∧
          DeleteStep fam σ σ' o now attributes e b) := by
  cases op with
  | insert o info =>
    rcases step_insert hstep with ⟨p, hnew, hp, rfl⟩
    rcases (h.setInfo o (some info)).insert (e := ⟨info.objType, p⟩) hnew
      (inetInfoPrefix_accepted hp) (halign p hp) with ⟨b, net, hsound, henr⟩
    exact ⟨hsound, .inl ⟨o, info, p, b, net, rfl, hnew, hp, rfl, henr⟩⟩
  | delete o now attributes =>
    rcases step_delete hstep with ⟨e, st', he, hdel, rfl⟩
    rcases (h.setInfo o attributes).delete he (halign e he) hdel with ⟨b, hsound, hwith⟩
    exact ⟨hsound, .inr ⟨o, now, attributes, e, b, rfl, he, rfl, hwith⟩⟩

lemma InsertStep.described (hs : InsertStep fam σ σ' o info p b net) (h : Valid fam σ) :
    Described fam σ' := by
  have huniv : σ'.state.tree.universeNet ≠ none := by
    rw [hs.enrolled.universeNet]
    exact h.sound.universe_ne_none
  intro x e hx
  rw [hs.dir] at hx
  rw [hs.enrolled.info]
  show ∃ info', update σ.state.net.info o (some info) x = some info' ∧ _
  rcases dir_update_some hx with ⟨rfl, rfl⟩ | ⟨hxo, hx⟩
  · rw [update_self]
    exact ⟨info, rfl, rfl, inetInfoPrefix_congr hs.accepted huniv⟩
  · rw [update_of_ne hxo]
    rcases h.described x e hx with ⟨info', hinfo, htype, hp⟩
    exact ⟨info', hinfo, htype, inetInfoPrefix_congr hp huniv⟩

lemma DeleteStep.described (hs : DeleteStep fam σ σ' o now attributes e b) (h : Valid fam σ) :
    Described fam σ' := by
  have huniv : σ'.state.tree.universeNet ≠ none := by
    rw [hs.withdrawn.universeNet]
    exact h.sound.universe_ne_none
  intro x e' hx
  rw [hs.dir] at hx
  rw [hs.withdrawn.info]
  rcases dir_update_none hx with ⟨hxo, hx⟩
  rcases h.described x e' hx with ⟨info', hinfo, htype, hp⟩
  refine ⟨info', ?_, htype, inetInfoPrefix_congr hp huniv⟩
  show update σ.state.net.info o attributes x = some info'
  rw [update_of_ne hxo]
  exact hinfo

lemma Valid.next (h : Valid fam σ) (halign : op.Aligned fam σ)
    (hstep : step fam σ op = some σ') : Valid fam σ' := by
  rcases step_cases h.sound halign hstep with
    ⟨hsound, ⟨o, info, p, b, net, _, hs⟩ | ⟨o, now, attributes, e, b, _, hs⟩⟩
  · exact ⟨hsound, hs.described h⟩
  · exact ⟨hsound, hs.described h⟩

end Cases

/-! ## The first step -/

/-- The books of a family without any items filed below its nets. -/
theorem Ledger.of_no_parents {nd : NetData} (hnetof : ∀ x, nd.netof x = none)
    (hcount : ∀ type c, nd.netCount type c = 0) (hranges : ∀ c, nd.netRanges c = [])
    (S : InetObjType → Set DbObject) : Ledger nd S := by
  have hroll : ∀ type c, roll (S type) nd.account c = ∅ := by
    intro type c
    simp [roll, NetData.account, hnetof]
  refine ⟨fun type _ c => ?_, fun c => ?_⟩
  · rw [hroll, Set.ncard_empty]
    exact hcount type c
  · rw [hroll, hranges]
    exact ⟨List.nodup_nil, fun x => by simp⟩

/-- The only prefix that an empty family accepts is that of a universe net. -/
theorem inetInfoPrefix_empty (hp : inetInfoPrefix fam Tree.empty o info = .ok p) :
    info.objType = .net ∧ p.bits = 0 := by
  cases info with
  | node address => cases hp
  | net start bits mask type =>
    refine ⟨rfl, ?_⟩
    simp only [inetInfoPrefix, inetNetPrefix, Tree.empty] at hp
    split at hp
    · cases hp
    · split at hp
      · cases hp
      · rename_i hroot
        split at hp
        · cases hp
        · split at hp
          · cases hp
          · cases hp
            simpa using hroot
  | range start last type devices =>
    simp only [inetInfoPrefix, inetRangePrefix] at hp
    split at hp <;> cases hp

/-- A family that has nothing but its universe net is sound. -/
theorem sound_universe {u : DbObject} (info : Option InetInfo)
    (hacc : (Entry.mk .net p).Accepted fam) (hbits : p.bits = 0) :
    Sound fam (inetInsertRoot (State.empty.setInfo u info) u)
      (update (fun _ => none) u (some ⟨.net, p⟩)) := by
  have hwf : WellFormed fam (inetInsertRoot (State.empty.setInfo u info) u)
      (update (fun _ => none) u (some ⟨.net, p⟩)) := by
    have h₀ := wellFormed_universe (u := u) hacc hbits
    exact ⟨h₀.blocks, h₀.universe_first, h₀.accepted, h₀.filed, h₀.filed_only, h₀.listed_once,
      h₀.parent, h₀.storage⟩
  have honly : ∀ {x e}, update (fun _ => none) u (some (Entry.mk .net p)) x = some e →
      e = ⟨.net, p⟩ ∧ x = u := by
    intro x e hx
    rcases dir_update_some hx with ⟨rfl, rfl⟩ | ⟨_, ⟨⟩⟩
    exact ⟨rfl, rfl⟩
  refine
    { wf := hwf
      parent := ?_
      unfiled := fun _ => rfl
      block := ?_
      finite := finite_update (by simp) u _
      ledger := Ledger.of_no_parents (fun _ => rfl) ?_ (fun _ => rfl) _ }
  · intro x e hx
    exact hwf.parent hx (by simp [(honly hx).1])
  · intro x e hx _
    rcases hwf.filing with ⟨r, hfile⟩
    rcases hfile.located hx with ⟨b, hloc⟩
    -- The root block is the only block.
    have hb : b = 0 := by
      by_contra hne
      have hlisted := hloc.listed
      simp [inetInsertRoot, State.setInfo, State.empty, Tree.empty, (honly hx).1, hne] at hlisted
    refine ⟨0, ?_, hb ▸ hloc⟩
    rw [(honly hx).2]
    exact update_self _ _ _
  · intro type c
    simp [inetInsertRoot, State.setInfo, State.empty, NetData.setItemBlock, NetData.empty]

/-- The first step of a family inserts its universe net. -/
theorem Valid.first (hstep : step fam Config.empty op = some σ') :
    Valid fam σ' ∧ ∃ o info p, op = .insert o info ∧
      σ' = ⟨inetInsertRoot (State.empty.setInfo o (some info)) o,
        update (fun _ => none) o (some ⟨.net, p⟩)⟩ := by
  cases op with
  | delete o now attributes => cases hstep
  | insert o info =>
    rcases step_insert hstep with ⟨p, _, hp, rfl⟩
    rcases inetInfoPrefix_empty hp with ⟨hobj, hbits⟩
    have hacc := inetInfoPrefix_accepted hp
    rw [hobj] at hacc ⊢
    refine ⟨⟨sound_universe (some info) hacc hbits, ?_⟩, o, info, p, rfl, rfl⟩
    intro x e hx
    have hxo : x = o := by
      by_contra hne
      have hnone : update (fun _ => none) o (some (Entry.mk .net p)) x = some e := hx
      rw [update_of_ne hne] at hnone
      cases hnone
    subst hxo
    have he : e = ⟨.net, p⟩ := some.inj (hx.symm.trans (update_self _ _ _))
    rw [he]
    refine ⟨info, update_self _ _ _, hobj, inetInfoPrefix_congr hp ?_⟩
    exact some_ne_none _

/-- What the first step establishes and every aligned step keeps holds in every state of a run
that starts with an empty family. -/
theorem Run.reached {ok : Config → Op → Prop} {I : Config → Prop}
    (halign : ∀ {σ op}, ok σ op → op.Aligned fam σ)
    (hfirst : ∀ {op σ'}, step fam Config.empty op = some σ' → Valid fam σ' → I σ')
    (hnext : ∀ {σ op σ'}, Valid fam σ → I σ → ok σ op → step fam σ op = some σ' → I σ')
    (hrun : Run fam ok Config.empty σ) : σ = Config.empty ∨ (Valid fam σ ∧ I σ) := by
  induction hrun with
  | refl => exact .inl rfl
  | tail _ hstep ih =>
    rcases hstep with ⟨op, hok, hstep⟩
    rcases ih with rfl | ⟨hvalid, hinv⟩
    · have hvalid := (Valid.first hstep).1
      exact .inr ⟨hvalid, hfirst hstep hvalid⟩
    · exact .inr ⟨hvalid.next (halign hok) hstep, hnext hvalid hinv hok hstep⟩

/-! ## Checked runs -/

/-- The operations are done as long as they pass a check. -/
def runChecked (fam : Family) (check : Config → Op → Bool) : Config → List Op → Option Config
  | σ, [] => some σ
  | σ, op :: ops =>
    if check σ op then (step fam σ op).bind (runChecked fam check · ops) else none

lemma run_of_runChecked {ok : Config → Op → Prop} {check : Config → Op → Bool} {ops : List Op}
    (hcheck : ∀ {σ op}, check σ op = true → ok σ op) (h : runChecked fam check σ ops = some σ') :
    runOps fam σ ops = some σ' ∧ Run fam ok σ σ' := by
  induction ops generalizing σ with
  | nil => exact ⟨h, some.inj h ▸ .refl⟩
  | cons op ops ih =>
    rw [runChecked] at h
    split_ifs at h with hop
    rcases bind_eq_some_iff.1 h with ⟨σ₁, hstep, hrest⟩
    exact ⟨bind_eq_some_iff.2 ⟨σ₁, hstep, (ih hrest).1⟩, .head ⟨op, hcheck hop, hstep⟩ (ih hrest).2⟩

/-- The operations that are aligned whatever has been filed before: insertions, of ranges only if
their start has no bits set in the rest of the digit, and deletions of nodes. -/
def Op.quiet (fam : Family) (σ : Config) : Op → Bool
  | .insert o info => info.objType ≠ .range ||
      match inetInfoPrefix fam σ.state.tree o info with
      | .ok p => p.bits % 4 = 0 || subIndex p p.bits = 0
      | .error _ => false
  | .delete o _ _ => (σ.dir o).all (·.type = .node)

lemma Op.aligned_of_quiet (h : op.quiet fam σ = true) : op.Aligned fam σ := by
  cases op with
  | insert o info =>
    intro p hp
    by_cases htype : info.objType = .range
    · have hquiet : p.bits % 4 = 0 ∨ subIndex p p.bits = 0 := by simpa [Op.quiet, htype, hp] using h
      rw [subIndex_eq_window, BitStream.window_eq_zero_iff] at hquiet
      exact .inl hquiet
    · exact .inl ((inetInfoPrefix_accepted hp).alignedAt htype)
  | delete o now attributes =>
    intro e he
    have htype : e.type = .node := by simpa [Op.quiet, he] using h
    rw [DeleteSafe, RecycleSafe, htype]
    exact ⟨nofun, nofun⟩

/-- Only the objects of the operations are filed or taken away. -/
theorem dir_of_runOps {ops : List Op} {x : DbObject} (h : runOps fam σ ops = some σ')
    (hx : ∀ op ∈ ops, op.object ≠ x) : σ'.dir x = σ.dir x := by
  induction ops generalizing σ with
  | nil => exact congrArg (Config.dir · x) (some.inj h).symm
  | cons op ops ih =>
    rcases runOps_cons h with ⟨σ₁, hstep, hrest⟩
    obtain ⟨hop, hops⟩ := List.forall_mem_cons.1 hx
    rw [ih hrest hops]
    cases op with
    | insert o info =>
      rcases step_insert hstep with ⟨p, -, -, rfl⟩
      exact update_of_ne (Ne.symm hop) _ _
    | delete o now attributes =>
      rcases step_delete hstep with ⟨e, st', -, -, rfl⟩
      exact update_of_ne (Ne.symm hop) _ _

/-! ## Addresses -/

/-- Addresses with the same bits are the same. -/
theorem octets_eq_of_agree {n : ℕ} {q : InetPrefix}
    (hp : p.octets.length = n) (hq : q.octets.length = n) (h : Agree (8 * n) p.stream q.stream) : p.octets = q.octets := by
  refine List.ext_getElem (hp.trans hq.symm) fun i hi hi' => ?_
  refine BitVec.eq_of_getMsbD_eq fun k hk => ?_
  have hbit := h (8 * i + k) (by omega)
  have hdiv : (8 * i + k) / 8 = i := by omega
  have hmod : (8 * i + k) % 8 = k := by omega
  simpa [InetPrefix.stream, hdiv, hmod, List.getD_eq_getElem?_getD, List.getElem?_eq_getElem hi,
    List.getElem?_eq_getElem hi'] using hbit

end Inet
end Unameit
