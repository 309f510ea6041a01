import Cortana.Control.Cells
import Cortana.Control.Destruction
import Cortana.Control.Membership

/-!
# Several handles on one store

Handles on one store make their calls at the same time, and the accesses of the
calls are interleaved.  Where no call has a value changed under it between its
accesses, the calls have had their results one after the other: the gate has one
holder, a migration is in the ledger once, a removed member stays out, and no
tenant or workspace is dropped.
-/

namespace Cortana

open Pathname Serial

/-! ## What a call leaves in the cells -/

namespace SharedOperation

/-- The call has acquired the maintenance gate. -/
def Acquired (x : SharedOperation × SharedReply) : Prop :=
  (∃ reason, x.1.call = .acquireMaintenanceGate reason) ∧ x.2 = .done (.ok ())

/-- The call has released the maintenance gate. -/
def Released (x : SharedOperation × SharedReply) : Prop :=
  x.1.call = .releaseMaintenanceGate ∧ x.2 = .done (.ok ())

/-- The call has recorded a migration. -/
def Recorded (id : String) (x : SharedOperation × SharedReply) : Prop :=
  (∃ maintenanceGated reversible, x.1.call = .recordMigration id maintenanceGated reversible) ∧
    x.2 = .recorded (.ok true)

/-- The call has provisioned a tenant. -/
def Provisioned (tenantId : String) (x : SharedOperation × SharedReply) : Prop :=
  ∃ request record, x.1.call = .tenant (.provision request) ∧ x.2 = .tenant (.ok record) ∧
    record.tenantId = tenantId

/-- The call has created a workspace. -/
def Created (workspaceId : String) (x : SharedOperation × SharedReply) : Prop :=
  ∃ request record, x.1.call = .team (.createWorkspace request) ∧
    x.2 = .team (.ok (.workspace record)) ∧ record.workspaceId = workspaceId

/-- The call has removed a member. -/
def Removed (workspaceId target : String) (x : SharedOperation × SharedReply) : Prop :=
  ∃ actor member, x.1.call = .team (.removeMember workspaceId actor target) ∧
    x.2 = .team (.ok (.member member))

/-- The call has admitted an invited member. -/
def Joined (memberId : String) (x : SharedOperation × SharedReply) : Prop :=
  ∃ invitationId member, x.1.call = .team (.acceptInvitation invitationId memberId) ∧
    x.2 = .team (.ok (.member member))

end SharedOperation

namespace SharedStore

open SharedOperation

variable {d : SharedStore} {op : SharedOperation} {reply : SharedReply} {cells cells' : SharedCells}

/-- What a call alone makes of the cells. -/
inductive Outcome (d : SharedStore) (op : SharedOperation) (cells : SharedCells) :
    SharedCells → SharedReply → Prop where
  | acquired {reason : String} (gate : MaintenanceGate) :
      op.call = .acquireMaintenanceGate reason → cells .maintenanceGate = none →
      Outcome d op cells (Function.update cells .maintenanceGate (some gate)) (.done (.ok ()))
  | released : op.call = .releaseMaintenanceGate →
      Outcome d op cells (Function.update cells .maintenanceGate none) (.done (.ok ()))
  | recorded {maintenanceGated reversible : Bool} (entry : MigrationEntry) :
      op.call = .recordMigration entry.id maintenanceGated reversible →
      applied (cells .migrationLedger) entry.id = false →
      Outcome d op cells
        (Function.update cells .migrationLedger (cells .migrationLedger ++ [entry]))
        (.recorded (.ok true))
  | tenant {call : TenantCall}
      (out : (TenantControlPlane × FileTree Char) × Except String TenantRecord) :
      op.call = .tenant call →
      out = (tenants cells).apply d.codec op.occasion (cells .disk) call →
      Outcome d op cells (withTenants cells out.1.1 out.1.2) (.tenant out.2)
  | team {call : TeamCall} (out : (TeamControlPlane × FileTree Char) × Except String TeamReply) :
      op.call = .team call →
      out = (teams cells).apply d.codec op.occasion (cells .disk) call →
      Outcome d op cells (withTeams cells out.1.1 out.1.2) (.team out.2)
  | idle (reply : SharedReply) :
      (∀ reason, op.call = .acquireMaintenanceGate reason → reply ≠ .done (.ok ())) →
      (∀ result, reply = .recorded result → result ≠ .ok true) →
      (∀ result, reply ≠ .tenant result) → (∀ result, reply ≠ .team result) →
      Outcome d op cells cells reply

theorem outcome_recordMigration {id : String} {maintenanceGated reversible : Bool}
    (hcall : op.call = .recordMigration id maintenanceGated reversible)
    (h : (d.recordMigration op.occasion id maintenanceGated reversible).run cells =
      (cells', reply)) :
    Outcome d op cells cells' reply := by
  have happend : applied (cells .migrationLedger) id = false →
      (d.appendMigration op.occasion id maintenanceGated reversible).run cells = (cells', reply) →
      Outcome d op cells cells' reply := by
    intro hnew hrun
    obtain ⟨rfl, rfl⟩ := Prod.mk.inj hrun
    exact .recorded ⟨id, _, _, _⟩ hcall hnew
  rw [recordMigration, Program.run_read] at h
  split at h
  · obtain ⟨rfl, rfl⟩ := Prod.mk.inj h
    exact .idle _ (by simp) (by simp) (by simp) (by simp)
  · rename_i hnew
    have hnew : applied (cells .migrationLedger) id = false := by simpa using hnew
    split at h
    · rw [Program.run_read] at h
      split at h
      · obtain ⟨rfl, rfl⟩ := Prod.mk.inj h
        exact .idle _ (by simp) (by simp) (by simp) (by simp)
      · exact happend hnew h
    · exact happend hnew h

theorem outcome_of_run (h : (d.steps op).run cells = (cells', reply)) :
    Outcome d op cells cells' reply := by
  obtain ⟨call, occasion⟩ := op
  cases call with
  | acquireMaintenanceGate reason =>
      change (d.acquireMaintenanceGate occasion reason).run cells = _ at h
      rw [acquireMaintenanceGate, Program.run_read] at h
      cases hgate : cells .maintenanceGate with
      | none =>
          rw [hgate] at h
          obtain ⟨rfl, rfl⟩ := Prod.mk.inj h
          exact .acquired _ rfl hgate
      | some gate =>
          rw [hgate] at h
          obtain ⟨rfl, rfl⟩ := Prod.mk.inj h
          exact .idle _ (by simp) (by simp) (by simp) (by simp)
  | releaseMaintenanceGate =>
      change releaseMaintenanceGate.run cells = _ at h
      rw [releaseMaintenanceGate, Program.run_read] at h
      split at h
      · obtain ⟨rfl, rfl⟩ := Prod.mk.inj h
        exact .idle _ (by simp) (by simp) (by simp) (by simp)
      · obtain ⟨rfl, rfl⟩ := Prod.mk.inj h
        exact .released rfl
  | recordMigration id maintenanceGated reversible => exact outcome_recordMigration rfl h
  | listMigrations =>
      obtain ⟨rfl, rfl⟩ := Prod.mk.inj h
      exact .idle _ (by simp) (by simp) (by simp) (by simp)
  | tenant call =>
      change (d.tenantSteps occasion call).run cells = _ at h
      rw [run_tenantSteps] at h
      obtain ⟨rfl, rfl⟩ := Prod.mk.inj h
      exact .tenant _ rfl rfl
  | listTenants =>
      obtain ⟨rfl, rfl⟩ := Prod.mk.inj h
      exact .idle _ (by simp) (by simp) (by simp) (by simp)
  | team call =>
      change (d.teamSteps occasion call).run cells = _ at h
      rw [run_teamSteps] at h
      obtain ⟨rfl, rfl⟩ := Prod.mk.inj h
      exact .team _ rfl rfl
  | listWorkspaces =>
      obtain ⟨rfl, rfl⟩ := Prod.mk.inj h
      exact .idle _ (by simp) (by simp) (by simp) (by simp)
  | authorize workspaceId memberId operation =>
      obtain ⟨rfl, rfl⟩ := Prod.mk.inj h
      exact .idle _ (by simp) (by simp) (by simp) (by simp)

/-! ## The gate -/

/-- The gate is acquired where it is free. -/
theorem gate_of_acquired {x : SharedOperation × SharedReply}
    (h : Outcome d x.1 cells cells' x.2) (hx : Acquired x) :
    cells .maintenanceGate = none ∧ cells' .maintenanceGate ≠ none := by
  obtain ⟨op, reply⟩ := x
  obtain ⟨⟨reason, hcall⟩, hreply⟩ := hx
  cases h with
  | acquired gate _ hfree => exact ⟨hfree, by simp⟩
  | released hrelease => cases hcall.symm.trans hrelease
  | recorded entry hrecord => cases hcall.symm.trans hrecord
  | tenant out htenant => cases hcall.symm.trans htenant
  | team out hteam => cases hcall.symm.trans hteam
  | idle _ hgate => exact absurd hreply (hgate reason hcall)

/-- Only a release frees the gate. -/
theorem gate_of_not_released {x : SharedOperation × SharedReply}
    (h : Outcome d x.1 cells cells' x.2) (hx : ¬Released x)
    (hheld : cells .maintenanceGate ≠ none) : cells' .maintenanceGate ≠ none := by
  obtain ⟨op, reply⟩ := x
  cases h with
  | acquired gate => simp
  | released hrelease => exact absurd ⟨hrelease, rfl⟩ hx
  | recorded entry => exact hheld
  | tenant out => exact hheld
  | team out => exact hheld
  | idle => exact hheld

/-! ## The ledger -/

/-- How often a migration is in the ledger. -/
def entries (cells : SharedCells) (id : String) : ℕ :=
  (cells .migrationLedger).countP fun entry ↦ entry.id == id

theorem entries_of_recorded {x : SharedOperation × SharedReply} {id : String}
    (h : Outcome d x.1 cells cells' x.2) (hx : Recorded id x) : entries cells' id = 1 := by
  obtain ⟨op, reply⟩ := x
  obtain ⟨⟨gated, reversible, hcall⟩, hreply⟩ := hx
  cases h with
  | acquired gate hacquire => cases hcall.symm.trans hacquire
  | released hrelease => cases hcall.symm.trans hrelease
  | recorded entry hrecord hnew =>
      obtain ⟨rfl, -, -⟩ := SharedCall.recordMigration.inj (hcall.symm.trans hrecord)
      have hnone : entries cells entry.id = 0 := by
        simpa [entries, applied, List.countP_eq_zero] using hnew
      simp only [entries, Function.update_self, List.countP_append]
      rw [show List.countP _ (cells .migrationLedger) = 0 from hnone]
      simp
  | tenant out htenant => cases hcall.symm.trans htenant
  | team out hteam => cases hcall.symm.trans hteam
  | idle _ _ hrecorded => exact absurd rfl (hrecorded _ hreply)

/-- An entry is not made again. -/
theorem entries_of_outcome {id : String} (h : Outcome d op cells cells' reply)
    (hone : entries cells id = 1) : entries cells' id = 1 := by
  cases h with
  | acquired gate => exact hone
  | released => exact hone
  | recorded entry hrecord hnew =>
      have hother : entry.id ≠ id := by
        rintro rfl
        have hnone : entries cells entry.id = 0 := by
          simpa [entries, applied, List.countP_eq_zero] using hnew
        omega
      simp only [entries, Function.update_self, List.countP_append]
      rw [show List.countP _ (cells .migrationLedger) = 1 from hone]
      simp [hother]
  | tenant out => exact hone
  | team out => exact hone
  | idle => exact hone

/-! ## The registries -/

theorem mem_of_provision {s t : TenantControlPlane} {request : ProvisionRequest}
    {record : TenantRecord} (h : s.Effect (.provision request) t (some record)) :
    record ∈ t.registry := by
  cases h with
  | provisioned => simp
  | changed _ hchanged => cases hchanged

theorem mem_of_createWorkspace {codec : ControlCodec} {occasion : Occasion}
    {s t : TeamControlPlane} {request : CreateWorkspaceRequest} {record : WorkspaceRecord}
    (h : TeamEffect codec occasion s (.createWorkspace request) t (some (.workspace record))) :
    record ∈ t.registry := by
  cases h with
  | created => simp

/-- A member who is out stays out, unless an invitation of theirs is accepted. -/
def StaysOut (memberId : String) (w w' : WorkspaceRecord) : Prop :=
  w'.workspaceId = w.workspaceId ∧
    (w.activeMember memberId = none → w'.activeMember memberId = none)

theorem grows_of_effect {codec : ControlCodec} {occasion : Occasion} {s t : TeamControlPlane}
    {call : TeamCall} {answer : Option TeamReply} {memberId : String}
    (h : TeamEffect codec occasion s call t answer)
    (hnot : ∀ invitationId member, call = .acceptInvitation invitationId memberId →
      answer ≠ some (.member member)) :
    Registry.Grows (StaysOut memberId) s.registry t.registry := by
  have hrefl : ∀ w, StaysOut memberId w w := fun _ ↦ ⟨rfl, id⟩
  have hrow : ∀ {id : String} {before after : List WorkspaceRecord} {w w' : WorkspaceRecord},
      FirstWith WorkspaceRecord.workspaceId id s.registry before w after →
      StaysOut memberId w w' →
      Registry.Grows (StaysOut memberId) s.registry (before ++ w' :: after) := by
    intro id before after w w' hfirst hout
    rw [hfirst.split]
    exact .of_split hrefl hout
  cases h with
  | rejected => exact .refl hrefl _
  | created request => exact .append hrefl _ _
  | invited => exact .refl hrefl _
  | expired => exact .refl hrefl _
  | stranded => exact .refl hrefl _
  | @joined invitationId acceptor pre post i before after w member _ _ _ hfirst _ _ hmember =>
      refine hrow hfirst ⟨rfl, fun hnone ↦ ?_⟩
      apply WorkspaceRecord.activeMember_admit hnone rfl
      rintro rfl
      rw [hmember] at hnot
      exact hnot invitationId member rfl rfl
  | revoked => exact .refl hrefl _
  | closed stamp _ hfirst hsplit =>
      exact hrow hfirst ⟨rfl, WorkspaceRecord.activeMember_close stamp hsplit⟩
  | marked hfirst => exact hrow hfirst ⟨rfl, id⟩
  | destroyed deletedAt receipt hfirst _ heq =>
      subst heq
      exact hrow hfirst ⟨rfl, id⟩

/-- Every workspace keeps one active record a member. -/
theorem oneRecord_of_effect {codec : ControlCodec} {occasion : Occasion} {s t : TeamControlPlane}
    {call : TeamCall} {answer : Option TeamReply}
    (h : TeamEffect codec occasion s call t answer) (hs : ∀ w ∈ s.registry, w.OneRecord) :
    ∀ w ∈ t.registry, w.OneRecord := by
  have hrow : ∀ {id : String} {before after : List WorkspaceRecord} {w w' : WorkspaceRecord},
      FirstWith WorkspaceRecord.workspaceId id s.registry before w after →
      (w.OneRecord → w'.OneRecord) → ∀ v ∈ before ++ w' :: after, v.OneRecord := by
    intro id before after w w' hfirst hnew v hv
    rw [hfirst.split] at hs
    rcases List.mem_append.mp hv with hv | hv
    · exact hs v (List.mem_append_left _ hv)
    · rcases List.mem_cons.mp hv with rfl | hv
      · exact hnew (hs w (by simp))
      · exact hs v (List.mem_append_right _ (List.mem_cons_of_mem _ hv))
  cases h with
  | rejected => exact hs
  | created request =>
      intro w hw
      rcases List.mem_append.mp hw with hw | hw
      · exact hs w hw
      · rw [List.mem_singleton.mp hw]
        exact List.pairwise_singleton _ _
  | invited => exact hs
  | expired => exact hs
  | stranded => exact hs
  | joined member _ _ _ hfirst _ hnone hmember =>
      refine hrow hfirst fun hw ↦ hw.admit ?_
      rw [hmember]
      exact hnone
  | revoked => exact hs
  | closed stamp _ hfirst hsplit => exact hrow hfirst fun hw ↦ hw.close stamp hsplit
  | marked hfirst => exact hrow hfirst id
  | destroyed deletedAt receipt hfirst _ heq =>
      subst heq
      exact hrow hfirst id

/-- A removed member is out. -/
theorem out_of_removeMember {codec : ControlCodec} {occasion : Occasion} {s t : TeamControlPlane}
    {workspaceId actor target : String} {member : MemberRecord} (hs : ∀ w ∈ s.registry, w.OneRecord)
    (h : TeamEffect codec occasion s (.removeMember workspaceId actor target) t
      (some (.member member))) :
    ∃ w, t.workspace workspaceId = some w ∧ w.activeMember target = none := by
  cases h with
  | @closed _ wid mid m before after w pre post stamp hcall hfirst hsplit _ hid hactive =>
      rcases hcall with ⟨actor', hcall⟩ | hcall
      · obtain ⟨rfl, rfl, rfl⟩ := TeamCall.removeMember.inj hcall
        refine ⟨_, TeamControlPlane.workspace_of_firstWith ⟨rfl, hfirst.before, hfirst.found⟩, ?_⟩
        rw [WorkspaceRecord.activeMember_eq_none]
        have hone := hs w (by simp [hfirst.split])
        rw [WorkspaceRecord.OneRecord, hsplit, List.pairwise_append, List.pairwise_cons] at hone
        intro n hn hnid
        rcases List.mem_append.mp hn with hn | hn
        · intro hnone
          exact hone.2.2 n hn m (by simp) hnone hactive (hnid.trans hid.symm)
        · rcases List.mem_cons.mp hn with rfl | hn
          · simp
          · intro hnone
            exact hone.2.1.1 n hn hactive hnone (hid.trans hnid.symm)
      · cases hcall

/-- Tenants keep their places. -/
theorem grows_tenants (h : Outcome d op cells cells' reply) :
    Registry.Grows (fun r r' : TenantRecord ↦ r'.tenantId = r.tenantId) (cells .tenantRegistry)
      (cells' .tenantRegistry) := by
  have hrefl : Registry.Grows (fun r r' : TenantRecord ↦ r'.tenantId = r.tenantId)
      (cells .tenantRegistry) (cells .tenantRegistry) := by
    apply Registry.Grows.refl
    intro r
    rfl
  cases h with
  | acquired gate => exact hrefl
  | released => exact hrefl
  | recorded entry => exact hrefl
  | @tenant call out _ hout =>
      subst hout
      exact (TenantControlPlane.effect_apply (cells .disk) call).grows.mono fun _ _ h ↦ h.id
  | team out => exact hrefl
  | idle => exact hrefl

theorem tenant_of_provisioned {x : SharedOperation × SharedReply} {tenantId : String}
    (h : Outcome d x.1 cells cells' x.2) (hx : Provisioned tenantId x) :
    ∃ r ∈ cells' .tenantRegistry, r.tenantId = tenantId := by
  obtain ⟨op, reply⟩ := x
  obtain ⟨request, record, hcall, hreply, hid⟩ := hx
  cases h with
  | acquired gate hacquire => cases hcall.symm.trans hacquire
  | released hrelease => cases hcall.symm.trans hrelease
  | recorded entry hrecord => cases hcall.symm.trans hrecord
  | @tenant call out htenant hout =>
      obtain rfl := SharedCall.tenant.inj (hcall.symm.trans htenant)
      have heffect : (tenants cells).Effect (.provision request)
          ((tenants cells).apply d.codec op.occasion (cells .disk) _).1.1 _ :=
        TenantControlPlane.effect_apply (cells .disk) (.provision request)
      rw [← hout, show out.2 = .ok record from SharedReply.tenant.inj hreply] at heffect
      exact ⟨record, mem_of_provision heffect, hid⟩
  | team out hteam => cases hcall.symm.trans hteam
  | idle _ _ _ htenant => exact absurd hreply (htenant _)

theorem grows_workspaces {memberId : String} (h : Outcome d op cells cells' reply)
    (hnot : ¬Joined memberId (op, reply)) :
    Registry.Grows (StaysOut memberId) (cells .teamRegistry) (cells' .teamRegistry) := by
  have hrefl : Registry.Grows (StaysOut memberId) (cells .teamRegistry) (cells .teamRegistry) :=
    .refl (fun _ ↦ ⟨rfl, id⟩) _
  cases h with
  | acquired gate => exact hrefl
  | released => exact hrefl
  | recorded entry => exact hrefl
  | tenant out => exact hrefl
  | @team call out hteam hout =>
      subst hout
      refine grows_of_effect (TeamControlPlane.effect_apply (cells .disk) call) ?_
      rintro invitationId member rfl hanswer
      apply hnot
      refine ⟨invitationId, member, hteam, ?_⟩
      cases hreply : ((teams cells).apply d.codec op.occasion (cells .disk)
          (.acceptInvitation invitationId memberId)).2 with
      | error e =>
          rw [hreply] at hanswer
          cases hanswer
      | ok answer =>
          rw [hreply] at hanswer
          obtain rfl := Option.some.inj hanswer
          rfl
  | idle => exact hrefl

/-- Every workspace keeps a row with its id. -/
theorem exists_workspace (h : Outcome d op cells cells' reply) {w : WorkspaceRecord}
    (hw : w ∈ cells .teamRegistry) :
    ∃ w' ∈ cells' .teamRegistry, w'.workspaceId = w.workspaceId := by
  cases h with
  | acquired gate => exact ⟨w, hw, rfl⟩
  | released => exact ⟨w, hw, rfl⟩
  | recorded entry => exact ⟨w, hw, rfl⟩
  | tenant out => exact ⟨w, hw, rfl⟩
  | @team call out _ hout =>
      subst hout
      exact @TeamHistory.grows_ids d.codec ⟨teams cells, []⟩ ⟨_, []⟩
        ⟨call, op.occasion, cells .disk⟩ _
        (TeamControlPlane.effect_apply (cells .disk) call) w hw
  | idle => exact ⟨w, hw, rfl⟩

theorem oneRecord_of_outcome (h : Outcome d op cells cells' reply)
    (hone : ∀ w ∈ cells .teamRegistry, w.OneRecord) : ∀ w ∈ cells' .teamRegistry, w.OneRecord := by
  cases h with
  | acquired gate => exact hone
  | released => exact hone
  | recorded entry => exact hone
  | tenant out => exact hone
  | @team call out _ hout =>
      subst hout
      exact oneRecord_of_effect (TeamControlPlane.effect_apply (cells .disk) call) hone
  | idle => exact hone

theorem workspace_of_created {x : SharedOperation × SharedReply} {workspaceId : String}
    (h : Outcome d x.1 cells cells' x.2) (hx : Created workspaceId x) :
    ∃ w ∈ cells' .teamRegistry, w.workspaceId = workspaceId := by
  obtain ⟨op, reply⟩ := x
  obtain ⟨request, record, hcall, hreply, hid⟩ := hx
  cases h with
  | acquired gate hacquire => cases hcall.symm.trans hacquire
  | released hrelease => cases hcall.symm.trans hrelease
  | recorded entry hrecord => cases hcall.symm.trans hrecord
  | tenant out htenant => cases hcall.symm.trans htenant
  | @team call out hteam hout =>
      obtain rfl := SharedCall.team.inj (hcall.symm.trans hteam)
      have heffect : TeamEffect d.codec op.occasion (teams cells) (.createWorkspace request)
          ((teams cells).apply d.codec op.occasion (cells .disk) _).1.1 _ :=
        TeamControlPlane.effect_apply (cells .disk) (.createWorkspace request)
      rw [← hout, show out.2 = .ok _ from SharedReply.team.inj hreply] at heffect
      exact ⟨record, mem_of_createWorkspace heffect, hid⟩
  | idle _ _ _ _ hteam => exact absurd hreply (hteam _)

/-- The member is out of the workspace. -/
def Out (workspaceId memberId : String) (cells : SharedCells) : Prop :=
  ∃ w, (cells .teamRegistry).find? (fun w ↦ w.workspaceId == workspaceId) = some w ∧
    w.activeMember memberId = none

theorem out_of_removed {x : SharedOperation × SharedReply} {workspaceId target : String}
    (h : Outcome d x.1 cells cells' x.2) (hone : ∀ w ∈ cells .teamRegistry, w.OneRecord)
    (hx : Removed workspaceId target x) : Out workspaceId target cells' := by
  obtain ⟨op, reply⟩ := x
  obtain ⟨actor, member, hcall, hreply⟩ := hx
  cases h with
  | acquired gate hacquire => cases hcall.symm.trans hacquire
  | released hrelease => cases hcall.symm.trans hrelease
  | recorded entry hrecord => cases hcall.symm.trans hrecord
  | tenant out htenant => cases hcall.symm.trans htenant
  | @team call out hteam hout =>
      obtain rfl := SharedCall.team.inj (hcall.symm.trans hteam)
      have heffect : TeamEffect d.codec op.occasion (teams cells) (.removeMember workspaceId actor target)
          ((teams cells).apply d.codec op.occasion (cells .disk) _).1.1 _ :=
        TeamControlPlane.effect_apply (cells .disk) (.removeMember workspaceId actor target)
      rw [← hout, show out.2 = .ok _ from SharedReply.team.inj hreply] at heffect
      exact out_of_removeMember hone heffect
  | idle _ _ _ _ hteam => exact absurd hreply (hteam _)

theorem out_of_outcome {workspaceId memberId : String} (h : Outcome d op cells cells' reply)
    (hnot : ¬Joined memberId (op, reply)) (hout : Out workspaceId memberId cells) :
    Out workspaceId memberId cells' := by
  obtain ⟨w, hw, hnone⟩ := hout
  have hkey : ∀ r r', StaysOut memberId r r' →
      (r'.workspaceId == workspaceId) = (r.workspaceId == workspaceId) := by
    rintro r r' ⟨hid, -⟩
    rw [hid]
  obtain ⟨w', hw', -, hstays⟩ := (grows_workspaces h hnot).find hkey hw
  exact ⟨w', hw', hstays hnone⟩

/-! ## Interleaved calls -/

/-- The handles of a store, the calls they are in, and the calls that ended. -/
abbrev Handles (ι : Type) := System Shared.Value SharedOperation ι SharedReply

variable {ι : Type} [DecidableEq ι] {s : Handles ι} {order : List (SharedOperation × SharedReply)}
  {clean : SharedCells}

/-- Some order of the ended calls, one after the other, has their results and
leads to the state, the values that running calls have written apart. -/
def Serializable (d : SharedStore) (cells : SharedCells) (s : Handles ι) : Prop :=
  ∃ order clean, order.Perm s.finished ∧ Sequential d.steps cells order clean ∧
    ∀ key, (∀ i r, s.running i = some r → r.left key = none) → s.cells key = clean key

/-- No update of the gate, the ledger and the registries is lost. -/
structure NothingLost (d : SharedStore) (cells : SharedCells) (s : Handles ι) : Prop where
  serializable : Serializable d cells s
  oneHolder : ∀ before between after x y,
    s.finished = before ++ x :: (between ++ y :: after) → Acquired x → Acquired y →
      ∃ z ∈ between, Released z
  onceRecorded : ∀ x ∈ s.finished, ∀ id, Recorded id x → entries s.cells id = 1
  staysRemoved : (∀ w ∈ cells .teamRegistry, w.OneRecord) →
    ∀ before x after workspaceId target, s.finished = before ++ x :: after →
      Removed workspaceId target x → (∀ y ∈ after, ¬Joined target y) →
      Out workspaceId target s.cells
  keepsTenants : ∀ x ∈ s.finished, ∀ tenantId, Provisioned tenantId x →
    ∃ r ∈ s.cells .tenantRegistry, r.tenantId = tenantId
  keepsWorkspaces : ∀ x ∈ s.finished, ∀ workspaceId, Created workspaceId x →
    ∃ w ∈ s.cells .teamRegistry, w.workspaceId = workspaceId

/-- A call in a sequence, with the cells it finds and leaves. -/
theorem outcome_at {before after : List (SharedOperation × SharedReply)}
    {x : SharedOperation × SharedReply}
    (h : Sequential d.steps cells (before ++ x :: after) clean) :
    ∃ c c', Sequential d.steps cells before c ∧ Outcome d x.1 c c' x.2 ∧
      Sequential d.steps c' after clean := by
  obtain ⟨c, hbefore, c', hrun, hafter⟩ := Iff.mp sequential_append h
  exact ⟨c, c', hbefore, outcome_of_run hrun, hafter⟩

/-- What every call of a sequence preserves. -/
theorem preserves_of_sequential (inv : SharedCells → Prop)
    (hstep : ∀ x ∈ order, ∀ c c', inv c → Outcome d x.1 c c' x.2 → inv c')
    (h : Sequential d.steps cells order clean) (hcells : inv cells) : inv clean :=
  h.preserves (fun x hx c c' hc hrun ↦ hstep x hx c c' hc (outcome_of_run hrun)) hcells

theorem oneHolder_of_sequential (h : Sequential d.steps cells order clean)
    {before between after : List (SharedOperation × SharedReply)}
    {x y : SharedOperation × SharedReply}
    (horder : order = before ++ x :: (between ++ y :: after)) (hx : Acquired x)
    (hy : Acquired y) : ∃ z ∈ between, Released z := by
  subst horder
  obtain ⟨_, c, -, houtcome, hrest⟩ := outcome_at h
  obtain ⟨c', c'', hbetween, houtcome', -⟩ := outcome_at hrest
  by_contra hnone
  push Not at hnone
  have hheld : c' .maintenanceGate ≠ none := by
    refine preserves_of_sequential (fun c ↦ c .maintenanceGate ≠ none) ?_ hbetween
      (gate_of_acquired houtcome hx).2
    intro z hz _ _ hc hz'
    exact gate_of_not_released hz' (hnone z hz) hc
  exact hheld (gate_of_acquired houtcome' hy).1

theorem onceRecorded_of_sequential (h : Sequential d.steps cells order clean)
    {x : SharedOperation × SharedReply} (hx : x ∈ order) {id : String} (hid : Recorded id x) :
    entries clean id = 1 := by
  obtain ⟨before, after, rfl⟩ := List.append_of_mem hx
  obtain ⟨_, c, -, houtcome, hrest⟩ := outcome_at h
  refine preserves_of_sequential (fun c ↦ entries c id = 1) ?_ hrest
    (entries_of_recorded houtcome hid)
  intro y _ _ _ hc hy
  exact entries_of_outcome hy hc

theorem staysRemoved_of_sequential (h : Sequential d.steps cells order clean)
    (hone : ∀ w ∈ cells .teamRegistry, w.OneRecord)
    {before after : List (SharedOperation × SharedReply)} {x : SharedOperation × SharedReply}
    {workspaceId target : String} (horder : order = before ++ x :: after)
    (hx : Removed workspaceId target x) (hafter : ∀ y ∈ after, ¬Joined target y) :
    Out workspaceId target clean := by
  subst horder
  obtain ⟨c, c', hbefore, houtcome, hrest⟩ := outcome_at h
  have hc : ∀ w ∈ c .teamRegistry, w.OneRecord := by
    refine preserves_of_sequential (fun c ↦ ∀ w ∈ c .teamRegistry, w.OneRecord) ?_ hbefore hone
    intro y _ _ _ hc hy
    exact oneRecord_of_outcome hy hc
  refine preserves_of_sequential (Out workspaceId target) ?_ hrest
    (out_of_removed houtcome hc hx)
  intro y hy _ _ hout houtcome'
  exact out_of_outcome houtcome' (hafter y hy) hout

theorem keepsTenants_of_sequential (h : Sequential d.steps cells order clean)
    {x : SharedOperation × SharedReply} (hx : x ∈ order) {tenantId : String}
    (hid : Provisioned tenantId x) : ∃ r ∈ clean .tenantRegistry, r.tenantId = tenantId := by
  obtain ⟨before, after, rfl⟩ := List.append_of_mem hx
  obtain ⟨_, c, -, houtcome, hrest⟩ := outcome_at h
  refine preserves_of_sequential (fun c ↦ ∃ r ∈ c .tenantRegistry, r.tenantId = tenantId) ?_ hrest
    (tenant_of_provisioned houtcome hid)
  rintro y - _ _ ⟨r, hr, hrid⟩ houtcome'
  obtain ⟨r', hr', heq⟩ := (grows_tenants houtcome').exists_mem hr
  exact ⟨r', hr', heq.trans hrid⟩

theorem keepsWorkspaces_of_sequential (h : Sequential d.steps cells order clean)
    {x : SharedOperation × SharedReply} (hx : x ∈ order) {workspaceId : String}
    (hid : Created workspaceId x) : ∃ w ∈ clean .teamRegistry, w.workspaceId = workspaceId := by
  obtain ⟨before, after, rfl⟩ := List.append_of_mem hx
  obtain ⟨_, c, -, houtcome, hrest⟩ := outcome_at h
  refine preserves_of_sequential (fun c ↦ ∃ w ∈ c .teamRegistry, w.workspaceId = workspaceId) ?_
    hrest (workspace_of_created houtcome hid)
  rintro y - _ _ ⟨w, hw, hwid⟩ houtcome'
  obtain ⟨w', hw', heq⟩ := exists_workspace houtcome' hw
  exact ⟨w', hw', heq.trans hwid⟩

/-- In every run in which no call has a value changed under it, or is in the
middle of another's changes, nothing is lost. -/
theorem nothingLost_of_run (h : Transition.Run (Step d.steps) Clear (.fresh cells) s) :
    NothingLost d cells s := by
  obtain ⟨clean, hs⟩ := explicable_of_run h
  have hcell : ∀ {key : Shared}, Registered key → s.cells key = clean key :=
    fun hkey ↦ cell_eq_of_run (writesLast_steps hkey) h hs
  have hledger : s.cells .migrationLedger = clean .migrationLedger := hcell ⟨nofun, nofun⟩
  have htenants : s.cells .tenantRegistry = clean .tenantRegistry := hcell ⟨nofun, nofun⟩
  have hteams : s.cells .teamRegistry = clean .teamRegistry := hcell ⟨nofun, nofun⟩
  exact {
    serializable := ⟨s.finished, clean, .refl _, hs.sequential, hs.free⟩
    oneHolder := fun _ _ _ _ _ hsplit hx hy ↦ oneHolder_of_sequential hs.sequential hsplit hx hy
    onceRecorded := fun x hx id hid ↦ by
      rw [entries, hledger]
      exact onceRecorded_of_sequential hs.sequential hx hid
    staysRemoved := fun hone _ _ _ _ _ hsplit hx hafter ↦ by
      rw [Out, hteams]
      exact staysRemoved_of_sequential hs.sequential hone hsplit hx hafter
    keepsTenants := fun x hx tenantId hid ↦ by
      rw [htenants]
      exact keepsTenants_of_sequential hs.sequential hx hid
    keepsWorkspaces := fun x hx workspaceId hid ↦ by
      rw [hteams]
      exact keepsWorkspaces_of_sequential hs.sequential hx hid }

/-- A store to evaluate calls on. -/
def sample : SharedStore := ⟨.sample⟩

/-- A store in which nothing is registered. -/
def emptyCells : SharedCells
  | .maintenanceGate => none
  | .migrationLedger => []
  | .tenantRegistry => []
  | .teamRegistry => []
  | .teamInvitations => []
  | .disk => ⟨[], [[]]⟩

/-- The state after events on the empty store. -/
def after (events : List (Event SharedOperation Bool)) : Handles Bool :=
  (events.foldlM (next sample.steps) (.fresh emptyCells)).getD (.fresh emptyCells)

def acquire (reason : String) : SharedOperation := ⟨.acquireMaintenanceGate reason, ⟨0, "", .sample⟩⟩

def listing : SharedOperation := ⟨.listTenants, ⟨0, "", .sample⟩⟩

/-- One handle lists the tenants while the other one acquires the gate. -/
def sampleEvents : List (Event SharedOperation Bool) :=
  [.start false (acquire "upgrade"), .access false, .start true listing, .access true,
    .access false]

/-- An access of one handle while the other one has written nothing. -/
theorem undisturbed_of_idle {s : Handles Bool} {i : Bool}
    {r : Running Shared.Value SharedOperation SharedReply}
    (hcurrent : ∀ key v, r.seen key = some v → s.cells key = (r.left key).getD v)
    (hidle : ∀ q, s.running (!i) = some q → q.left = fun _ ↦ none) : Undisturbed s i r := by
  refine ⟨hcurrent, fun j q hj hq key _ ↦ ?_⟩
  obtain rfl : j = !i := Bool.eq_not_of_ne hj
  rw [hidle q hq]

theorem run_sample :
    Transition.Run (Step sample.steps) Clear (.fresh emptyCells) (after sampleEvents) := by
  have h₁ : Transition.Run (Step sample.steps) Clear (.fresh emptyCells)
      (after (sampleEvents.take 1)) := by
    apply (Transition.Run.refl _).snoc
    · exact (show Clear _ (.start false (acquire "upgrade")) from trivial)
    · exact rfl
  have h₂ : Transition.Run (Step sample.steps) Clear (.fresh emptyCells)
      (after (sampleEvents.take 2)) := by
    apply h₁.snoc
    · show Clear _ (.access false)
      intro r hr
      obtain rfl := Option.some.inj hr
      exact undisturbed_of_idle nofun nofun
    · exact rfl
  have h₃ : Transition.Run (Step sample.steps) Clear (.fresh emptyCells)
      (after (sampleEvents.take 3)) := by
    apply h₂.snoc
    · exact (show Clear _ (.start true listing) from trivial)
    · exact rfl
  have h₄ : Transition.Run (Step sample.steps) Clear (.fresh emptyCells)
      (after (sampleEvents.take 4)) := by
    apply h₃.snoc
    · show Clear _ (.access true)
      intro r hr
      obtain rfl := Option.some.inj hr
      refine undisturbed_of_idle nofun ?_
      intro q hq
      obtain rfl := Option.some.inj hq
      rfl
    · exact rfl
  apply h₄.snoc
  · show Clear _ (.access false)
    intro r hr
    obtain rfl := Option.some.inj hr
    refine undisturbed_of_idle ?_ nofun
    intro key v hv
    cases key with
    | maintenanceGate =>
        obtain rfl := Option.some.inj hv
        rfl
    | migrationLedger => cases hv
    | tenantRegistry => cases hv
    | teamRegistry => cases hv
    | teamInvitations => cases hv
    | disk => cases hv
  · exact rfl

/-- The gate is acquired while another handle lists the tenants. -/
theorem nothingLost_sample :
    (after sampleEvents).finished.length = 2 ∧ NothingLost sample emptyCells (after sampleEvents) :=
  ⟨rfl, nothingLost_of_run run_sample⟩

/-- Both handles read that the gate is free before either of them writes. -/
def lostEvents : List (Event SharedOperation Bool) :=
  [.start false (acquire "upgrade"), .start true (acquire "repair"), .access false, .access true,
    .access false, .access true]

/-- Two handles acquire the gate, and no order of the two explains it. -/
theorem acquire_lost :
    Transition.Run (Step sample.steps) (fun _ _ ↦ True) (.fresh emptyCells) (after lostEvents) ∧
      ¬Serializable sample emptyCells (after lostEvents) := by
  refine ⟨Transition.Run.of_foldlM (fun _ _ _ h ↦ h) (fun _ _ _ ↦ trivial)
    (show lostEvents.foldlM (next sample.steps) _ = some _ from rfl), ?_⟩
  rintro ⟨order, clean, hperm, hsequential, -⟩
  have hfinished : (after lostEvents).finished =
      [(acquire "upgrade", .done (.ok ())), (acquire "repair", .done (.ok ()))] := rfl
  rw [hfinished] at hperm
  have hacquired : ∀ x ∈ order, Acquired x := by
    intro x hx
    have hx := hperm.mem_iff.mp hx
    fin_cases hx
    · exact ⟨⟨_, rfl⟩, rfl⟩
    · exact ⟨⟨_, rfl⟩, rfl⟩
  obtain ⟨x, y, rfl⟩ := List.length_eq_two.mp hperm.length_eq
  obtain ⟨z, hz, -⟩ := oneHolder_of_sequential hsequential
    (show [x, y] = [] ++ x :: ([] ++ y :: []) from rfl) (hacquired x (by simp))
    (hacquired y (by simp))
  cases hz

end SharedStore

end Cortana
