import Cortana.Control.History

/-!
# Destruction of data planes

The status of a workspace or a tenant over all calls, the receipt a destroyed
one keeps, and how often its files are removed.
-/

namespace Cortana

open Pathname Transition

/-! ## Workspaces -/

/-- The moves of a workspace. -/
inductive WorkspaceStatus.Next : WorkspaceStatus → WorkspaceStatus → Prop where
  | mark : Next .active .deleting
  | destroy : Next .deleting .deleted

namespace WorkspaceRecord

/-- A deleted workspace and its receipt stay as they are. -/
def Sealed (w w' : WorkspaceRecord) : Prop :=
  w.status = .deleted → w'.status = .deleted ∧ w'.deletedAt = w.deletedAt ∧
    w'.purgeReceiptDigest = w.purgeReceiptDigest

/-- What one call makes of a workspace. -/
structure Onward (w w' : WorkspaceRecord) : Prop where
  id : w'.workspaceId = w.workspaceId
  status : w'.status = w.status ∨ w.status.Next w'.status
  kept : w.Sealed w'

theorem Onward.refl (w : WorkspaceRecord) : w.Onward w := ⟨rfl, .inl rfl, fun h ↦ ⟨h, rfl, rfl⟩⟩

theorem Sealed.trans {u v w : WorkspaceRecord} (h : u.Sealed v) (h' : v.Sealed w) : u.Sealed w := by
  intro hu
  obtain ⟨hv, hat, hreceipt⟩ := h hu
  obtain ⟨hw, hat', hreceipt'⟩ := h' hv
  exact ⟨hw, hat'.trans hat, hreceipt'.trans hreceipt⟩

end WorkspaceRecord

/-- The owner asks for the deletion of a workspace that is deleted already. -/
def TeamControlPlane.reopens (s : TeamControlPlane) : TeamCall → Bool
  | .requestDelete workspaceId actor =>
      (s.workspace workspaceId).any fun w ↦
        w.status = .deleted ∧ (w.activeMember actor).any fun member ↦ member.role = .owner
  | _ => false

namespace TeamHistory

variable {codec : ControlCodec} {h h' : TeamHistory} {action : TeamAction}

/-- No deletion is asked for twice. -/
def Unreopened (h : TeamHistory) (action : TeamAction) : Prop :=
  h.plane.reopens action.call = false

theorem grows_of_step (hguard : Unreopened h action) (hstep : Step codec h action h') :
    Registry.Grows WorkspaceRecord.Onward h.plane.registry h'.plane.registry := by
  obtain ⟨reply, heffect, -⟩ := hstep.effect
  have hrefl := WorkspaceRecord.Onward.refl
  have hrow : ∀ {id : String} {before after : List WorkspaceRecord} {w w' : WorkspaceRecord},
      FirstWith WorkspaceRecord.workspaceId id h.plane.registry before w after → w.Onward w' →
      Registry.Grows WorkspaceRecord.Onward h.plane.registry (before ++ w' :: after) := by
    intro id before after w w' hfirst honward
    rw [hfirst.split]
    exact .of_split hrefl honward
  generalize h'.plane = t at heffect
  unfold Unreopened at hguard
  generalize action.call = call at heffect hguard
  cases heffect with
  | rejected => exact .refl hrefl _
  | created request => exact .append hrefl _ _
  | invited => exact .refl hrefl _
  | expired => exact .refl hrefl _
  | stranded => exact .refl hrefl _
  | joined member _ _ _ hfirst => exact hrow hfirst ⟨rfl, .inl rfl, fun hw ↦ ⟨hw, rfl, rfl⟩⟩
  | revoked => exact .refl hrefl _
  | closed stamp _ hfirst => exact hrow hfirst ⟨rfl, .inl rfl, fun hw ↦ ⟨hw, rfl, rfl⟩⟩
  | @marked workspaceId actor before after w member hfirst hmember howner =>
      have hdeleted : w.status ≠ .deleted := by
        intro hw
        have hfound := TeamControlPlane.workspace_of_firstWith hfirst
        simp [TeamControlPlane.reopens, hfound, hw, hmember, howner] at hguard
      refine hrow hfirst ⟨rfl, ?_, fun hw ↦ absurd hw hdeleted⟩
      cases hstatus : w.status with
      | active => exact .inr .mark
      | deleting => exact .inl rfl
      | deleted => exact absurd hstatus hdeleted
  | destroyed deletedAt receipt hfirst hstatus heq =>
      subst heq
      refine hrow hfirst ⟨rfl, ?_, fun hw ↦ ?_⟩
      · rw [hstatus]
        exact .inr .destroy
      · rw [hstatus] at hw
        cases hw

theorem workspace_of_grows {id : String} {w : WorkspaceRecord}
    (hgrows : Registry.Grows WorkspaceRecord.Onward h.plane.registry h'.plane.registry)
    (hw : h.plane.workspace id = some w) :
    ∃ w', h'.plane.workspace id = some w' ∧ w.Onward w' := by
  apply hgrows.find _ hw
  intro r r' hr
  rw [hr.id]

/-- The files of a workspace were removed once at most, and only with its
deletion. -/
def RemovedOnce (h : TeamHistory) : Prop :=
  ∀ id, h.log.count (.filesRemoved id) ≤ 1 ∧ (.filesRemoved id ∈ h.log →
    ∃ w, h.plane.workspace id = some w ∧ w.status = .deleted)

/-- Files are removed by the confirmed deletion of a workspace that was
waiting for it. -/
theorem destroyed_of_observe {s t : TeamControlPlane} {occasion : Occasion} {call : TeamCall}
    {reply : Option TeamReply} {tree : FileTree Char} {id : String}
    (heffect : TeamEffect codec occasion s call t reply)
    (hnew : .filesRemoved id ∈ s.observe host tree call reply) :
    ∃ before after w w', FirstWith WorkspaceRecord.workspaceId id s.registry before w after ∧
      w.status = .deleting ∧ w'.workspaceId = id ∧ w'.status = .deleted ∧
      t.registry = before ++ w' :: after ∧
      s.observe host tree call reply = [.filesRemoved id] := by
  cases heffect with
  | @destroyed workspaceId actor before after w w' deletedAt receipt hfirst hstatus heq =>
      simp only [TeamControlPlane.observe] at hnew ⊢
      split at hnew
      · rename_i hdir
        obtain rfl : id = workspaceId := by simpa using hnew
        exact ⟨before, after, w, w', hfirst, hstatus, by rw [heq]; exact hfirst.found,
          by rw [heq], rfl, by rw [if_pos hdir]⟩
      · cases hnew
  | rejected => cases call <;> simp [TeamControlPlane.observe] at hnew
  | closed stamp hcall =>
      rcases hcall with ⟨actor, rfl⟩ | rfl <;> simp [TeamControlPlane.observe] at hnew
  | invited i _ hw hinviter => simp [TeamControlPlane.observe, hw, hinviter] at hnew
  | created => simp [TeamControlPlane.observe] at hnew
  | expired => simp [TeamControlPlane.observe] at hnew
  | stranded => simp [TeamControlPlane.observe] at hnew
  | joined => simp [TeamControlPlane.observe] at hnew
  | revoked => simp [TeamControlPlane.observe] at hnew
  | marked => simp [TeamControlPlane.observe] at hnew

theorem removedOnce_of_step (hguard : Unreopened h action) (honce : RemovedOnce h)
    (hstep : Step codec h action h') : RemovedOnce h' := by
  have hgrows := grows_of_step hguard hstep
  obtain ⟨reply, heffect, hlog⟩ := hstep.effect
  -- a workspace whose files were removed stays deleted
  have hkeep : ∀ id, .filesRemoved id ∈ h.log →
      ∃ w, h'.plane.workspace id = some w ∧ w.status = .deleted := by
    intro id hmem
    obtain ⟨w, hw, hdeleted⟩ := (honce id).2 hmem
    obtain ⟨w', hw', honward⟩ := workspace_of_grows hgrows hw
    exact ⟨w', hw', (honward.kept hdeleted).1⟩
  intro id
  by_cases hnew : .filesRemoved id ∈ h.plane.observe action.occasion.host action.tree action.call reply
  · obtain ⟨before, after, w, w', hfirst, hstatus, hid, hdeleted, hregistry, hobserve⟩ :=
      destroyed_of_observe heffect hnew
    have hfresh : .filesRemoved id ∉ h.log := by
      intro hmem
      obtain ⟨v, hv, hv'⟩ := (honce id).2 hmem
      rw [TeamControlPlane.workspace_of_firstWith hfirst, Option.some.injEq] at hv
      rw [← hv, hstatus] at hv'
      cases hv'
    refine ⟨?_, fun _ ↦ ⟨w', ?_, hdeleted⟩⟩
    · rw [hlog, hobserve, List.count_append, List.count_eq_zero.mpr hfresh]
      simp
    · rw [TeamControlPlane.workspace, hregistry]
      exact Registry.find?_of_split hfirst.before (by simp [hid])
  · refine ⟨?_, fun hmem ↦ ?_⟩
    · rw [hlog, List.count_append, List.count_eq_zero.mpr hnew]
      exact (honce id).1
    · rw [hlog, List.mem_append] at hmem
      exact hkeep id (hmem.resolve_right hnew)

/-- The status of every workspace moves on only, a deleted one and its receipt
are never changed, and no files are removed twice. -/
structure OneWay (codec : ControlCodec) (ok : TeamHistory → TeamAction → Prop)
    (h : TeamHistory) : Prop where
  moves : ∀ action h', ok h action → Step codec h action h' →
    Registry.Grows WorkspaceRecord.Onward h.plane.registry h'.plane.registry
  final : ∀ h', Run (Step codec) ok h h' →
    Registry.Grows WorkspaceRecord.Sealed h.plane.registry h'.plane.registry
  once : ∀ id, h.log.count (.filesRemoved id) ≤ 1

theorem oneWay_of_run
    (hrun : Run (Step codec) Unreopened opened h) :
    OneWay codec Unreopened h where
  moves _ _ hguard hstep := grows_of_step hguard hstep
  final h' hlater := by
    induction hlater with
    | refl => exact .refl (fun w hw ↦ ⟨hw, rfl, rfl⟩) _
    | tail _ hlast ih =>
        obtain ⟨action, hguard, hstep⟩ := hlast
        have hsealed : Registry.Grows WorkspaceRecord.Sealed _ _ :=
          (grows_of_step hguard hstep).mono fun _ _ honward ↦ honward.kept
        have htrans : ∀ u v w : WorkspaceRecord, u.Sealed v → v.Sealed w → u.Sealed w :=
          fun _ _ _ ↦ WorkspaceRecord.Sealed.trans
        exact ih.trans htrans hsealed
  once id := by
    have honce : RemovedOnce h := hrun.preserves
      (fun _ _ _ hs hguard hstep ↦ removedOnce_of_step hguard hs hstep)
      (fun id ↦ ⟨by simp [opened], fun hmem ↦ by simp [opened] at hmem⟩)
    exact (honce id).1

end TeamHistory

/-! ## Tenants -/

/-- The moves of a tenant, where a purge may be asked for in two states. -/
inductive TenantStatus.Next : TenantStatus → TenantStatus → Prop where
  | suspend : Next .active .suspended
  | activate : Next .suspended .active
  | requestActive : Next .active .purging
  | requestSuspended : Next .suspended .purging
  | purge : Next .purging .purged

namespace TenantRecord

/-- A purged tenant and its receipt stay as they are. -/
def Sealed (r r' : TenantRecord) : Prop :=
  r.status = .purged → r'.status = .purged ∧ r'.purgedAt = r.purgedAt ∧
    r'.purgeReceiptDigest = r.purgeReceiptDigest

/-- What one call makes of a tenant. -/
structure Onward (r r' : TenantRecord) : Prop where
  id : r'.tenantId = r.tenantId
  storePath : r'.storePath = r.storePath
  status : r'.status = r.status ∨ r.status.Next r'.status
  kept : r.Sealed r'

theorem Onward.refl (r : TenantRecord) : r.Onward r :=
  ⟨rfl, rfl, .inl rfl, fun h ↦ ⟨h, rfl, rfl⟩⟩

theorem Sealed.trans {q r s : TenantRecord} (h : q.Sealed r) (h' : r.Sealed s) : q.Sealed s := by
  intro hq
  obtain ⟨hr, hat, hreceipt⟩ := h hq
  obtain ⟨hs, hat', hreceipt'⟩ := h' hr
  exact ⟨hs, hat'.trans hat, hreceipt'.trans hreceipt⟩

end TenantRecord

namespace TenantControlPlane

variable {codec : ControlCodec} {occasion : Occasion} {s t : TenantControlPlane}
  {tree : FileTree Char}

/-- The change of a row by one of the calls on a tenant that is there. -/
inductive Changed : TenantCall → TenantRecord → TenantRecord → Prop where
  | suspended {r : TenantRecord} (stamp : String) : r.status = .active →
      Changed (.suspend r.tenantId) r { r with status := .suspended, suspendedAt := some stamp }
  | activated {r : TenantRecord} : r.status = .suspended →
      Changed (.activate r.tenantId) r { r with status := .active, suspendedAt := none }
  | requested {r : TenantRecord} (stamp : String) : r.status = .active ∨ r.status = .suspended →
      Changed (.requestPurge r.tenantId) r
        { r with status := .purging, purgeRequestedAt := some stamp }
  | purged {r : TenantRecord} (purgedAt receipt : String) : r.status = .purging →
      Changed (.confirmPurge r.tenantId r.tenantId) r
        { r with
          status := .purged, purgedAt := some purgedAt, purgeReceiptDigest := some receipt }

/-- What a call may make of the control plane, and its answer where it
succeeds. -/
inductive Effect (s : TenantControlPlane) : TenantCall → TenantControlPlane →
    Option TenantRecord → Prop where
  | rejected (call : TenantCall) : Effect s call s none
  | provisioned (host : Host) (request : ProvisionRequest) (r : TenantRecord) :
      s.admits host request = .ok () →
      r.status = .active → r.storePath = request.storePath →
      Effect s (.provision request) { s with registry := s.registry ++ [r] } (some r)
  | changed {call : TenantCall} {id : String} {before after : List TenantRecord}
      {r r' : TenantRecord} : FirstWith TenantRecord.tenantId id s.registry before r after →
      Changed call r r' →
      Effect s call { s with registry := before ++ r' :: after } (some r')

theorem effect_update {call : TenantCall} {tenantId : String} {r' : TenantRecord}
    {change : TenantRecord → Except String TenantRecord}
    (hchange : ∀ r r', r.tenantId = tenantId → change r = .ok r' → Changed call r r')
    (h : s.update tenantId change = .ok (t, r')) : s.Effect call t (some r') := by
  rw [update, Except.map_ok_iff] at h
  obtain ⟨⟨l, c⟩, hupdate, heq⟩ := h
  obtain ⟨rfl, rfl⟩ := Prod.mk.inj heq
  obtain ⟨before, r, after, r₁, hsplit, hbefore, hid, hrow, rfl⟩ :=
    Iff.mp Registry.updateFirst_eq_ok hupdate
  obtain ⟨r₂, hr₂, hpair⟩ := Iff.mp Except.map_ok_iff hrow
  obtain ⟨rfl, rfl⟩ := Prod.mk.inj hpair
  have hfound : r.tenantId = tenantId := by simpa using hid
  exact .changed ⟨hsplit, hbefore, hfound⟩ (hchange r _ hfound hr₂)

theorem effect_confirmPurge {tenantId confirmation : String} {r' : TenantRecord}
    (h : s.confirmPurge codec occasion tenantId confirmation = .ok (t, r')) :
    s.Effect (.confirmPurge tenantId confirmation) t (some r') := by
  obtain ⟨_, hconfirm, h⟩ := Iff.mp Except.bind_ok_iff h
  obtain rfl := Iff.mp Except.require_ok_iff hconfirm
  refine effect_update (fun r r' hid hr ↦ ?_) h
  obtain ⟨_, hstatus, hr⟩ := Iff.mp Except.bind_ok_iff hr
  obtain rfl := Iff.mp Except.pure_ok_iff hr
  rw [← hid]
  exact .purged _ _ (Iff.mp Except.require_ok_iff hstatus)

theorem effect_settled {call : TenantCall} {result : Except String (TenantControlPlane × TenantRecord)}
    (h : ∀ t r, result = .ok (t, r) → s.Effect call t (some r)) :
    s.Effect call (s.settled tree result).1.1 (s.settled tree result).2.toOption := by
  cases result with
  | error e => exact .rejected call
  | ok out => exact h out.1 out.2 rfl

/-- Every call has one of the effects. -/
theorem effect_apply (tree : FileTree Char) (call : TenantCall) :
    s.Effect call (s.apply codec occasion tree call).1.1
      (s.apply codec occasion tree call).2.toOption := by
  cases call with
  | provision request =>
      rw [apply, provision]
      split
      · exact .rejected _
      · rename_i hadmits
        split
        · exact .rejected _
        · split
          · exact .rejected _
          · exact .provisioned occasion.host request _ hadmits rfl rfl
  | suspend tenantId =>
      refine effect_settled fun t r h ↦ effect_update (fun r r' hid hr ↦ ?_) h
      obtain ⟨_, hstatus, hr⟩ := Iff.mp Except.bind_ok_iff hr
      obtain rfl := Iff.mp Except.pure_ok_iff hr
      rw [← hid]
      exact .suspended _ (Iff.mp Except.require_ok_iff hstatus)
  | activate tenantId =>
      refine effect_settled fun t r h ↦ effect_update (fun r r' hid hr ↦ ?_) h
      obtain ⟨_, hstatus, hr⟩ := Iff.mp Except.bind_ok_iff hr
      obtain rfl := Iff.mp Except.pure_ok_iff hr
      rw [← hid]
      exact .activated (Iff.mp Except.require_ok_iff hstatus)
  | requestPurge tenantId =>
      refine effect_settled fun t r h ↦ effect_update (fun r r' hid hr ↦ ?_) h
      obtain ⟨_, hstatus, hr⟩ := Iff.mp Except.bind_ok_iff hr
      obtain rfl := Iff.mp Except.pure_ok_iff hr
      rw [← hid]
      exact .requested _ (Iff.mp Except.require_ok_iff hstatus)
  | confirmPurge tenantId confirmation =>
      rw [apply]
      cases hresult : s.confirmPurge codec occasion tenantId confirmation with
      | error e => exact .rejected _
      | ok out => exact effect_confirmPurge hresult

theorem Changed.onward {call : TenantCall} {r r' : TenantRecord} (h : Changed call r r') :
    r.Onward r' := by
  cases h with
  | suspended stamp hstatus =>
      refine ⟨rfl, rfl, .inr ?_, fun hpurged ↦ ?_⟩
      · rw [hstatus]
        exact .suspend
      · rw [hstatus] at hpurged
        cases hpurged
  | activated hstatus =>
      refine ⟨rfl, rfl, .inr ?_, fun hpurged ↦ ?_⟩
      · rw [hstatus]
        exact .activate
      · rw [hstatus] at hpurged
        cases hpurged
  | requested stamp hstatus =>
      refine ⟨rfl, rfl, .inr ?_, fun hpurged ↦ ?_⟩
      · rcases hstatus with hstatus | hstatus <;> rw [hstatus]
        · exact .requestActive
        · exact .requestSuspended
      · rw [hpurged] at hstatus
        rcases hstatus with hstatus | hstatus <;> cases hstatus
  | purged purgedAt receipt hstatus =>
      refine ⟨rfl, rfl, .inr ?_, fun hpurged ↦ ?_⟩
      · rw [hstatus]
        exact .purge
      · rw [hstatus] at hpurged
        cases hpurged

theorem Effect.grows {call : TenantCall} {reply : Option TenantRecord}
    (h : s.Effect call t reply) :
    Registry.Grows TenantRecord.Onward s.registry t.registry := by
  cases h with
  | rejected => exact .refl TenantRecord.Onward.refl _
  | provisioned host request r => exact .append TenantRecord.Onward.refl _ _
  | changed hfirst hchanged =>
      rw [hfirst.split]
      exact .of_split TenantRecord.Onward.refl hchanged.onward

/-- The first tenant with the id. -/
def tenant (plane : TenantControlPlane) (tenantId : String) : Option TenantRecord :=
  plane.registry.find? fun record ↦ record.tenantId == tenantId

/-- A purge is asked for a tenant that was not suspended first. -/
def skipsSuspension (s : TenantControlPlane) : TenantCall → Bool
  | .requestPurge tenantId => (s.tenant tenantId).any fun r ↦ r.status = .active
  | _ => false

theorem tenant_of_firstWith {tenantId : String} {before after : List TenantRecord}
    {r : TenantRecord}
    (h : FirstWith TenantRecord.tenantId tenantId s.registry before r after) :
    s.tenant tenantId = some r := by
  rw [tenant, h.split]
  exact Registry.find?_of_split h.before (by simp [h.found])

/-- Without such a call no tenant goes from active to purging at once. -/
theorem Effect.suspended_first {call : TenantCall} {reply : Option TenantRecord}
    (h : s.Effect call t reply) (hcall : s.skipsSuspension call = false) :
    Registry.Grows (fun r r' : TenantRecord ↦ ¬(r.status = .active ∧ r'.status = .purging))
      s.registry t.registry := by
  have hrefl : ∀ r : TenantRecord, ¬(r.status = .active ∧ r.status = .purging) := by
    rintro r ⟨hactive, hpurging⟩
    rw [hactive] at hpurging
    cases hpurging
  cases h with
  | rejected => exact .refl hrefl _
  | provisioned host request r => exact .append hrefl _ _
  | changed hfirst hchanged =>
      rw [hfirst.split]
      refine .of_split hrefl ?_
      rintro ⟨hactive, hpurging⟩
      cases hchanged with
      | suspended => cases hpurging
      | activated => cases hpurging
      | purged => cases hpurging
      | requested stamp =>
          have hfound := tenant_of_firstWith hfirst
          rw [← hfirst.found] at hfound
          simp [skipsSuspension, hfound, hactive] at hcall

end TenantControlPlane

/-- A tenant control plane, and the tenants whose files were removed. -/
structure TenantHistory where
  plane : TenantControlPlane
  purges : List String

structure TenantAction where
  call : TenantCall
  occasion : Occasion
  tree : FileTree Char

namespace TenantHistory

/-- What a successful call adds to the history. -/
def observe (host : Host) (tree : FileTree Char) : TenantCall → Option TenantRecord → List String
  | .confirmPurge tenantId _, some r => if host.isDir tree r.storePath then [tenantId] else []
  | _, _ => []

def opened : TenantHistory := ⟨⟨[]⟩, []⟩

def next (codec : ControlCodec) (h : TenantHistory) (action : TenantAction) :
    TenantHistory :=
  let out := h.plane.apply codec action.occasion action.tree action.call
  ⟨out.1.1, h.purges ++ observe action.occasion.host action.tree action.call out.2.toOption⟩

def Step (codec : ControlCodec) (h : TenantHistory) (action : TenantAction)
    (h' : TenantHistory) : Prop :=
  h' = h.next codec action

variable {codec : ControlCodec} {h h' : TenantHistory} {action : TenantAction}

theorem run_of_along {ok : TenantHistory → TenantAction → Prop} {actions : List TenantAction}
    (hok : Along (next codec) ok h actions) :
    Run (Step codec) ok h (actions.foldl (next codec) h) := by
  have hstep : ∀ s event, Step codec s event (s.next codec event) := fun _ _ ↦ rfl
  exact Run.of_along hstep hok

theorem Step.effect (hstep : Step codec h action h') :
    ∃ reply, h.plane.Effect action.call h'.plane reply ∧
      h'.purges = h.purges ++ observe action.occasion.host action.tree action.call reply := by
  subst hstep
  exact ⟨_, TenantControlPlane.effect_apply action.tree action.call, rfl⟩

def RemovedOnce (h : TenantHistory) : Prop :=
  ∀ id, h.purges.count id ≤ 1 ∧ (id ∈ h.purges →
    ∃ r, h.plane.tenant id = some r ∧ r.status = .purged)

theorem purged_of_observe {s t : TenantControlPlane} {call : TenantCall}
    {reply : Option TenantRecord} {tree : FileTree Char} {id : String}
    (heffect : s.Effect call t reply) (hnew : id ∈ observe host tree call reply) :
    ∃ before after r r', FirstWith TenantRecord.tenantId id s.registry before r after ∧
      r.status = .purging ∧ r'.tenantId = id ∧ r'.status = .purged ∧
      t.registry = before ++ r' :: after ∧ observe host tree call reply = [id] := by
  cases heffect with
  | rejected => cases call <;> simp [observe] at hnew
  | provisioned => simp [observe] at hnew
  | @changed call found before after r r' hfirst hchanged =>
      cases hchanged with
      | suspended => simp [observe] at hnew
      | activated => simp [observe] at hnew
      | requested => simp [observe] at hnew
      | purged purgedAt receipt hstatus =>
          simp only [observe] at hnew ⊢
          split at hnew
          · rename_i hdir
            obtain rfl : id = r.tenantId := by simpa using hnew
            have hself : FirstWith TenantRecord.tenantId r.tenantId s.registry before r after :=
              ⟨hfirst.split, by rw [hfirst.found]; exact hfirst.before, rfl⟩
            exact ⟨before, after, r,
              { r with
                status := .purged, purgedAt := some purgedAt, purgeReceiptDigest := some receipt },
              hself, hstatus, rfl, rfl, rfl, by rw [if_pos hdir]⟩
          · cases hnew

theorem removedOnce_of_step (honce : RemovedOnce h) (hstep : Step codec h action h') :
    RemovedOnce h' := by
  obtain ⟨reply, heffect, hlog⟩ := hstep.effect
  have hgrows := heffect.grows
  intro id
  by_cases hnew : id ∈ observe action.occasion.host action.tree action.call reply
  · obtain ⟨before, after, r, r', hfirst, hstatus, hid, hpurged, hregistry, hobserve⟩ :=
      purged_of_observe heffect hnew
    have hfresh : id ∉ h.purges := by
      intro hmem
      obtain ⟨q, hq, hq'⟩ := (honce id).2 hmem
      rw [TenantControlPlane.tenant_of_firstWith hfirst, Option.some.injEq] at hq
      rw [← hq, hstatus] at hq'
      cases hq'
    refine ⟨?_, fun _ ↦ ⟨r', ?_, hpurged⟩⟩
    · rw [hlog, hobserve, List.count_append, List.count_eq_zero.mpr hfresh]
      simp
    · rw [TenantControlPlane.tenant, hregistry]
      exact Registry.find?_of_split hfirst.before (by simp [hid])
  · refine ⟨?_, fun hmem ↦ ?_⟩
    · rw [hlog, List.count_append, List.count_eq_zero.mpr hnew]
      exact (honce id).1
    · rw [hlog, List.mem_append] at hmem
      obtain ⟨r, hr, hpurged⟩ := (honce id).2 (hmem.resolve_right hnew)
      obtain ⟨r', hr', honward⟩ := hgrows.find (fun q q' hq ↦ by rw [hq.id]) hr
      exact ⟨r', hr', (honward.kept hpurged).1⟩

/-- The status of every tenant moves on only, a purged one and its receipt are
never changed, and no files are removed twice. -/
structure OneWay (codec : ControlCodec) (h : TenantHistory) : Prop where
  moves : ∀ action h', Step codec h action h' →
    Registry.Grows TenantRecord.Onward h.plane.registry h'.plane.registry
  suspendedFirst : ∀ action h', Step codec h action h' →
    h.plane.skipsSuspension action.call = false →
    Registry.Grows (fun r r' ↦ ¬(r.status = .active ∧ r'.status = .purging))
      h.plane.registry h'.plane.registry
  final : ∀ h', Run (Step codec) (fun _ _ ↦ True) h h' →
    Registry.Grows TenantRecord.Sealed h.plane.registry h'.plane.registry
  once : ∀ id, h.purges.count id ≤ 1

theorem oneWay_of_run
    (hrun : Run (Step codec) (fun _ _ ↦ True) opened h) :
    OneWay codec h where
  moves _ _ hstep := by
    obtain ⟨reply, heffect, -⟩ := hstep.effect
    exact heffect.grows
  suspendedFirst _ _ hstep hcall := by
    obtain ⟨reply, heffect, -⟩ := hstep.effect
    exact heffect.suspended_first hcall
  final h' hlater := by
    induction hlater with
    | refl => exact .refl (fun r hr ↦ ⟨hr, rfl, rfl⟩) _
    | tail _ hlast ih =>
        obtain ⟨action, -, hstep⟩ := hlast
        obtain ⟨reply, heffect, -⟩ := hstep.effect
        have hsealed : Registry.Grows TenantRecord.Sealed _ _ :=
          heffect.grows.mono fun _ _ honward ↦ honward.kept
        have htrans : ∀ q r s : TenantRecord, q.Sealed r → r.Sealed s → q.Sealed s :=
          fun _ _ _ ↦ TenantRecord.Sealed.trans
        exact ih.trans htrans hsealed
  once id := by
    have honce : RemovedOnce h := hrun.preserves
      (fun _ _ _ hs _ hstep ↦ removedOnce_of_step hs hstep)
      (fun id ↦ ⟨by simp [opened], fun hmem ↦ by simp [opened] at hmem⟩)
    exact (honce id).1

end TenantHistory

/-! ## Both control planes -/

/-- Destruction is one way on every control plane, as long as no owner asks for
the deletion of a workspace that is deleted already. -/
theorem destruction_oneWay {codec : ControlCodec} {h : TeamHistory} {k : TenantHistory}
    (hteam : Run (TeamHistory.Step codec) TeamHistory.Unreopened .opened h)
    (htenant : Run (TenantHistory.Step codec) (fun _ _ ↦ True) .opened k) :
    TeamHistory.OneWay codec TeamHistory.Unreopened h ∧ TenantHistory.OneWay codec k :=
  ⟨TeamHistory.oneWay_of_run hteam, TenantHistory.oneWay_of_run htenant⟩

/-- A workspace of Alice's, and the calls that delete it. -/
def TeamAction.sampleDeletion : List TeamAction :=
  let disk : FileTree Char := ⟨[], [[], ["team".toList]]⟩
  [ ⟨.createWorkspace ⟨"platform", "eu", "/team", "alice"⟩, ⟨0, "w1", .sample⟩, disk⟩,
    ⟨.requestDelete "w1" "alice", ⟨1, "u1", .sample⟩, disk⟩,
    ⟨.confirmDelete "w1" "alice" "w1", ⟨2, "u2", .sample⟩, disk⟩ ]

/-- A tenant, and the calls that purge it. -/
def TenantAction.samplePurge : List TenantAction :=
  let disk : FileTree Char := ⟨[], [[], ["acme".toList]]⟩
  [ ⟨.provision ⟨"acme", "eu", "cloud", "/acme", 10, 10, 90⟩, ⟨0, "t1", .sample⟩, disk⟩,
    ⟨.requestPurge "t1", ⟨1, "u1", .sample⟩, disk⟩,
    ⟨.confirmPurge "t1" "t1", ⟨2, "u2", .sample⟩, disk⟩ ]

instance (h : TeamHistory) (action : TeamAction) : Decidable (h.Unreopened action) :=
  inferInstanceAs (Decidable (_ = false))

theorem destruction_oneWay_sample :
    TeamHistory.OneWay .sample TeamHistory.Unreopened
        (TeamAction.sampleDeletion.foldl (TeamHistory.next .sample) .opened) ∧
      TenantHistory.OneWay .sample
        (TenantAction.samplePurge.foldl (TenantHistory.next .sample) .opened) := by
  apply destruction_oneWay
  · apply TeamHistory.run_of_along
    exact ⟨by decide +kernel, by decide +kernel, by decide +kernel, trivial⟩
  · apply TenantHistory.run_of_along
    exact ⟨trivial, trivial, trivial, trivial⟩

/-- The owner of a deleted workspace can ask for its deletion again. -/
theorem destruction_reopened :
    ¬∀ (codec : ControlCodec) (h : TeamHistory),
      Run (TeamHistory.Step codec) (fun _ _ ↦ True) .opened h →
        TeamHistory.OneWay codec (fun _ _ ↦ True) h := by
  intro hall
  let deleted := TeamAction.sampleDeletion.foldl (TeamHistory.next .sample) .opened
  have hrun : Run (TeamHistory.Step .sample) (fun _ _ ↦ True) .opened deleted :=
    TeamHistory.run_of_along ⟨trivial, trivial, trivial, trivial⟩
  let again : TeamAction := ⟨.requestDelete "w1" "alice", ⟨3, "u3", .sample⟩, ⟨[], []⟩⟩
  have hmoves := (hall .sample deleted hrun).moves again _ trivial rfl
  obtain ⟨w, hw⟩ : ∃ w, deleted.plane.registry[0]? = some w ∧ w.status = .deleted := by
    exact ⟨(deleted.plane.registry[0]?).get (by decide +kernel), by simp, by decide +kernel⟩
  obtain ⟨w', hw', honward⟩ := hmoves.get hw.1
  have hstatus : (((deleted.next .sample again).plane.registry[0]?).map
      fun w ↦ w.status) = some .deleting := by decide +kernel
  rw [hw', Option.map_some, (honward.kept hw.2).1] at hstatus
  cases hstatus

end Cortana
