import Cortana.Control.History
import Cortana.Core.Serial

/-!
# The calls on a store, one access at a time

The maintenance gate, the migration ledger and the registries of the control
planes are values in the meta table of a store.  A call reads a value with
`meta_get`, decides, and writes with `meta_set`; no transaction spans the two.
A call of a control plane has the steps of the plane's function on the values
it reads.
-/

namespace Cortana

open Pathname

/-- `migrations.maintenance_gate`. -/
structure MaintenanceGate where
  reason : String
  acquiredAt : String

/-- An entry of `migrations.ledger`. -/
structure MigrationEntry where
  id : String
  appliedAt : String
  maintenanceGated : Bool
  reversible : Bool

/-- The values that calls share: the keys of the meta table, and the disk. -/
inductive Shared where
  | maintenanceGate
  | migrationLedger
  | tenantRegistry
  | teamRegistry
  | teamInvitations
  | disk
deriving DecidableEq

/-- What is stored; a list that is not stored is empty. -/
@[reducible] def Shared.Value : Shared → Type
  | maintenanceGate => Option MaintenanceGate
  | migrationLedger => List MigrationEntry
  | tenantRegistry => List TenantRecord
  | teamRegistry => List WorkspaceRecord
  | teamInvitations => List Invitation
  | disk => FileTree Char

/-- The calls that several handles may make on one store. -/
inductive SharedCall where
  | acquireMaintenanceGate (reason : String)
  | releaseMaintenanceGate
  | recordMigration (id : String) (maintenanceGated reversible : Bool)
  | listMigrations
  | tenant (call : TenantCall)
  | listTenants
  | team (call : TeamCall)
  | listWorkspaces
  | authorize (workspaceId memberId : String) (operation : AccessOperation)

structure SharedOperation where
  call : SharedCall
  occasion : Occasion

inductive SharedReply where
  | done (result : Except String Unit)
  | recorded (result : Except String Bool)
  | migrations (ledger : List MigrationEntry)
  | tenant (result : Except String TenantRecord)
  | tenants (registry : List TenantRecord)
  | team (result : Except String TeamReply)
  | workspaces (registry : List WorkspaceRecord)

abbrev SharedCells := ∀ key : Shared, key.Value

/-- What the handles use of other crates. -/
structure SharedStore where
  codec : ControlCodec

namespace SharedStore

variable (d : SharedStore) (occasion : Occasion)

abbrev Steps := Program Shared.Value SharedReply

/-- A call that stops at an error goes on with a value otherwise. -/
def orFail {β : Type} (reply : Except String β → SharedReply) {γ : Type} (x : Except String γ)
    (rest : γ → Steps) : Steps :=
  match x with
  | .error e => .done (reply (.error e))
  | .ok c => rest c

/-- `Store::acquire_maintenance_gate`. -/
def acquireMaintenanceGate (reason : String) : Steps :=
  .read .maintenanceGate fun gate ↦
    match gate with
    | some _ => .done (.done (.error "maintenance gate is already held"))
    | none =>
        .write .maintenanceGate (some ⟨reason, d.codec.rfc3339 occasion.now⟩) (.done (.done (.ok ())))

/-- `Store::release_maintenance_gate`. -/
def releaseMaintenanceGate : Steps :=
  .read .maintenanceGate fun gate ↦
    match gate with
    | none => .done (.done (.error "maintenance gate is not held"))
    | some _ => .write .maintenanceGate none (.done (.done (.ok ())))

/-- `Store::migration_applied` in a ledger. -/
def applied (ledger : List MigrationEntry) (id : String) : Bool :=
  ledger.any fun entry ↦ entry.id == id

/-- The end of `Store::record_migration`: the ledger is read again. -/
def appendMigration (id : String) (maintenanceGated reversible : Bool) : Steps :=
  .read .migrationLedger fun ledger ↦
    .write .migrationLedger
      (ledger ++ [⟨id, d.codec.rfc3339 occasion.now, maintenanceGated, reversible⟩])
      (.done (.recorded (.ok true)))

/-- `Store::record_migration`. -/
def recordMigration (id : String) (maintenanceGated reversible : Bool) : Steps :=
  .read .migrationLedger fun ledger ↦
    if applied ledger id then .done (.recorded (.ok false))
    else if maintenanceGated then
      .read .maintenanceGate fun gate ↦
        match gate with
        | none =>
            .done (.recorded (.error
              ("migration " ++ id ++ " is maintenance-gated; hold the gate first")))
        | some _ => d.appendMigration occasion id maintenanceGated reversible
    else d.appendMigration occasion id maintenanceGated reversible

/-! ## Tenants -/

/-- The control plane with the registry a call has loaded. -/
def tenantPlane (registry : List TenantRecord) : TenantControlPlane := ⟨registry⟩

/-- A call that loads the registry, changes a row and saves it. -/
def changeTenant
    (change : TenantControlPlane → Except String (TenantControlPlane × TenantRecord)) : Steps :=
  .read .tenantRegistry fun registry ↦
    orFail .tenant (change (tenantPlane registry)) fun out ↦
      .write .tenantRegistry out.1.registry (.done (.tenant (.ok out.2)))

/-- A data plane is made: its directory, then its store. -/
def makeDataPlane {β : Type} (reply : Except String β → SharedReply) (failure path : String)
    (rest : Steps) : Steps :=
  .update .disk (fun tree ↦ (occasion.host.createDirAll tree path).getD tree) fun tree ↦
    match occasion.host.createDirAll tree path with
    | none => .done (reply (.error failure))
    | some _ =>
        .update .disk (fun made ↦ (occasion.host.openStore made path).getD made) fun made ↦
          match occasion.host.openStore made path with
          | none => .done (reply (.error "unable to open database file"))
          | some _ => rest

/-- The checks of `provision` before it loads the registry. -/
def provisionable (request : ProvisionRequest) : Except String Unit := do
  Except.require (trimmed request.name ≠ "") "tenant name cannot be empty"
  Except.require (request.sourceOfTruth ∈ ["local", "cloud", "hybrid"])
    "source of truth must be local, cloud, or hybrid"
  Except.require (¬startsWith occasion.host.registryFile.toList request.storePath.toList = true)
    "tenant data plane cannot contain the control-plane registry"

/-- `TenantControlPlane::provision`. -/
def provision (request : ProvisionRequest) : Steps :=
  orFail .tenant (provisionable occasion request) fun _ ↦
    .read .tenantRegistry fun registry ↦
      orFail .tenant ((tenantPlane registry).admits occasion.host request) fun _ ↦
        makeDataPlane occasion .tenant ("failed to create data plane at " ++ request.storePath)
          request.storePath
          (let record := TenantControlPlane.provisioned d.codec occasion request
          .write .tenantRegistry (registry ++ [record]) (.done (.tenant (.ok record))))

/-- `TenantControlPlane::confirm_purge`. -/
def confirmPurge (tenantId confirmation : String) : Steps :=
  orFail .tenant (Except.require (confirmation = tenantId)
      "purge confirmation must repeat the tenant id exactly") fun _ ↦
    .read .tenantRegistry fun registry ↦
      orFail .tenant ((tenantPlane registry).confirmPurge d.codec occasion tenantId confirmation)
        fun out ↦
          .update .disk (fun tree ↦ occasion.host.destroy tree out.2.storePath) fun _ ↦
            .write .tenantRegistry out.1.registry (.done (.tenant (.ok out.2)))

def tenantSteps : TenantCall → Steps
  | .provision request => d.provision occasion request
  | .suspend tenantId => changeTenant fun plane ↦ plane.suspend d.codec occasion tenantId
  | .activate tenantId => changeTenant fun plane ↦ plane.activate tenantId
  | .requestPurge tenantId =>
      changeTenant fun plane ↦ plane.requestPurge d.codec occasion tenantId
  | .confirmPurge tenantId confirmation => d.confirmPurge occasion tenantId confirmation

/-! ## Teams -/

/-- The control plane with the lists a call has loaded. -/
def teamPlane (registry : List WorkspaceRecord) (invitations : List Invitation) :
    TeamControlPlane :=
  ⟨registry, invitations⟩

/-- A call that loads the workspaces, changes one and saves them. -/
def changeWorkspace {β : Type} (reply : β → TeamReply)
    (change : TeamControlPlane → Except String (TeamControlPlane × β)) : Steps :=
  .read .teamRegistry fun registry ↦
    orFail .team (change (teamPlane registry [])) fun out ↦
      .write .teamRegistry out.1.registry (.done (.team (.ok (reply out.2))))

/-- The checks of `create_workspace` before it loads the registry. -/
def creatable (request : CreateWorkspaceRequest) : Except String Unit := do
  Except.require (trimmed request.name ≠ "") "workspace name cannot be empty"
  Except.require (trimmed request.ownerMemberId ≠ "") "owner member id cannot be empty"
  Except.require (¬startsWith occasion.host.registryFile.toList request.storePath.toList = true)
    "workspace data plane cannot contain the control-plane registry"

/-- `TeamControlPlane::create_workspace`. -/
def createWorkspace (request : CreateWorkspaceRequest) : Steps :=
  orFail .team (creatable occasion request) fun _ ↦
    .read .teamRegistry fun registry ↦
      orFail .team ((teamPlane registry []).admits occasion.host request) fun _ ↦
        makeDataPlane occasion .team
          ("failed to create workspace data plane at " ++ request.storePath) request.storePath
          (let record := TeamControlPlane.created d.codec occasion request
          .write .teamRegistry (registry ++ [record]) (.done (.team (.ok (.workspace record)))))

/-- The checks of `invite` before it loads the invitations. -/
def invitable (plane : TeamControlPlane) (workspaceId actor invitee : String) :
    Except String Unit := do
  let workspace ← (plane.workspace workspaceId).elim
    (.error ("unknown workspace " ++ workspaceId)) .ok
  let _ ← workspace.authorize actor .invite
  Except.require (workspace.activeMember invitee = none)
    ("member " ++ invitee ++ " is already active")

/-- `TeamControlPlane::invite`. -/
def invite (workspaceId actor invitee : String) (role : MemberRole) (ttlSeconds : ℤ) : Steps :=
  orFail .team (Except.require (role ≠ .owner)
      "owners are made at workspace creation, not by invitation") fun _ ↦
    .read .teamRegistry fun registry ↦
      orFail .team (invitable (teamPlane registry []) workspaceId actor invitee) fun _ ↦
        .read .teamInvitations fun invitations ↦
          orFail .team ((teamPlane registry invitations).invite d.codec occasion workspaceId
              actor invitee role ttlSeconds) fun out ↦
            .write .teamInvitations out.1.invitations (.done (.team (.ok (.invitation out.2))))

/-- `TeamControlPlane::accept_invitation`: the invitations are saved before the
workspaces are loaded. -/
def acceptInvitation (invitationId acceptor : String) : Steps :=
  .read .teamInvitations fun invitations ↦
    orFail .team ((teamPlane [] invitations).updateInvitation invitationId
        (TeamControlPlane.takeInvitation d.codec occasion acceptor)) fun (saved, taken, expired) ↦
      .write .teamInvitations saved.invitations
        (if expired then
          .done (.team (.error ("invitation expired at " ++ taken.expiresAt)))
        else
          changeWorkspace .member fun plane ↦
            plane.update taken.workspaceId
              (TeamControlPlane.admitMember d.codec occasion acceptor taken.role))

/-- `TeamControlPlane::revoke_invitation`. -/
def revokeInvitation (invitationId actor : String) : Steps :=
  .read .teamInvitations fun invitations ↦
    orFail .team ((invitations.find? fun invitation ↦ invitation.invitationId == invitationId).elim
        (.error ("unknown invitation " ++ invitationId)) .ok) fun _ ↦
      .read .teamRegistry fun registry ↦
        orFail .team ((teamPlane registry invitations).revokeInvitation invitationId actor)
          fun out ↦
            .write .teamInvitations out.1.invitations (.done (.team (.ok (.invitation out.2))))

/-- `TeamControlPlane::confirm_delete`. -/
def confirmDelete (workspaceId actor confirmation : String) : Steps :=
  orFail .team (Except.require (confirmation = workspaceId)
      "deletion confirmation must repeat the workspace id exactly") fun _ ↦
    .read .teamRegistry fun registry ↦
      orFail .team ((teamPlane registry []).confirmDelete d.codec occasion workspaceId actor
          confirmation) fun out ↦
        .update .disk (fun tree ↦ occasion.host.destroy tree out.2.storePath) fun _ ↦
          .write .teamRegistry out.1.registry (.done (.team (.ok (.workspace out.2))))

def teamSteps : TeamCall → Steps
  | .createWorkspace request => d.createWorkspace occasion request
  | .invite workspaceId actor invitee role ttlSeconds =>
      d.invite occasion workspaceId actor invitee role ttlSeconds
  | .acceptInvitation invitationId acceptor => d.acceptInvitation occasion invitationId acceptor
  | .revokeInvitation invitationId actor => revokeInvitation invitationId actor
  | .removeMember workspaceId actor target =>
      changeWorkspace .member fun plane ↦
        plane.removeMember d.codec occasion workspaceId actor target
  | .leave workspaceId memberId =>
      changeWorkspace .member fun plane ↦ plane.leave d.codec occasion workspaceId memberId
  | .requestDelete workspaceId actor =>
      changeWorkspace .workspace fun plane ↦ plane.requestDelete workspaceId actor
  | .confirmDelete workspaceId actor confirmation =>
      d.confirmDelete occasion workspaceId actor confirmation

/-- The accesses of a call. -/
def steps (op : SharedOperation) : Steps :=
  match op.call with
  | .acquireMaintenanceGate reason => d.acquireMaintenanceGate op.occasion reason
  | .releaseMaintenanceGate => releaseMaintenanceGate
  | .recordMigration id maintenanceGated reversible =>
      d.recordMigration op.occasion id maintenanceGated reversible
  | .listMigrations => .read .migrationLedger fun ledger ↦ .done (.migrations ledger.reverse)
  | .tenant call => d.tenantSteps op.occasion call
  | .listTenants => .read .tenantRegistry fun registry ↦ .done (.tenants registry)
  | .team call => d.teamSteps op.occasion call
  | .listWorkspaces => .read .teamRegistry fun registry ↦ .done (.workspaces registry)
  | .authorize workspaceId memberId operation =>
      .read .teamRegistry fun registry ↦
        .done (.done (((teamPlane registry []).workspace workspaceId).elim (.error denied)
          fun workspace ↦ (workspace.authorize memberId operation).map fun _ ↦ ()))

/-! ## A call alone -/

variable {d occasion} {cells : SharedCells}

/-- The control plane of tenants in the store. -/
def tenants (cells : SharedCells) : TenantControlPlane :=
  tenantPlane (cells .tenantRegistry)

/-- The control plane of teams in the store. -/
def teams (cells : SharedCells) : TeamControlPlane :=
  teamPlane (cells .teamRegistry) (cells .teamInvitations)

/-- The cells after a call of the tenants' control plane. -/
def withTenants (cells : SharedCells) (plane : TenantControlPlane) (tree : FileTree Char) :
    SharedCells :=
  Function.update (Function.update cells .disk tree) .tenantRegistry plane.registry

/-- The cells after a call of the teams' control plane. -/
def withTeams (cells : SharedCells) (plane : TeamControlPlane) (tree : FileTree Char) :
    SharedCells :=
  Function.update (Function.update (Function.update cells .disk tree) .teamRegistry plane.registry)
    .teamInvitations plane.invitations

@[simp] theorem registry_tenants : (tenants cells).registry = cells .tenantRegistry := rfl

@[simp] theorem withTenants_tenants : withTenants cells (tenants cells) (cells .disk) = cells := by
  simp [withTenants]

@[simp] theorem registry_teams : (teams cells).registry = cells .teamRegistry := rfl

@[simp] theorem invitations_teams : (teams cells).invitations = cells .teamInvitations := rfl

/-- Only the disk has changed. -/
@[simp] theorem withTeams_teams (tree : FileTree Char) :
    withTeams cells (teams cells) tree = Function.update cells .disk tree := by
  funext key
  cases key <;> rfl

theorem run_changeTenant
    (change : TenantControlPlane → Except String (TenantControlPlane × TenantRecord)) :
    (changeTenant change).run cells =
      let out := (tenants cells).settled (cells .disk) (change (tenants cells))
      (withTenants cells out.1.1 out.1.2, .tenant out.2) := by
  rw [changeTenant, Program.run_read]
  change Program.run (orFail _ (change (tenants cells)) _) cells = _
  cases hchange : change (tenants cells) with
  | error e => simp [orFail, TenantControlPlane.settled]
  | ok out => simp [orFail, TenantControlPlane.settled, withTenants]

theorem run_makeDataPlane {β : Type} {reply : Except String β → SharedReply}
    {failure path : String} {rest : Steps} :
    (makeDataPlane occasion reply failure path rest).run cells =
      match occasion.host.createDirAll (cells .disk) path with
      | none => (cells, reply (.error failure))
      | some made =>
          match occasion.host.openStore made path with
          | none =>
              (Function.update cells .disk made, reply (.error "unable to open database file"))
          | some opened => rest.run (Function.update cells .disk opened) := by
  rw [makeDataPlane, Program.run_update]
  cases hmade : occasion.host.createDirAll (cells .disk) path with
  | none => simp
  | some made =>
      simp only [Option.getD_some, Program.run_update, Function.update_self]
      cases hopened : occasion.host.openStore made path with
      | none => simp
      | some opened => simp

theorem admits_of_provisionable {request : ProvisionRequest} {e : String}
    (h : provisionable occasion request = .error e) :
    (tenants cells).admits occasion.host request = .error e := by
  have hsplit : (tenants cells).admits occasion.host request =
      (provisionable occasion request >>= fun _ ↦ do
      Except.require ((tenants cells).registry.length < registryTenantLimit)
        ("tenant limit of " ++ toString registryTenantLimit ++ " reached")
      Except.require (∀ record ∈ (tenants cells).registry, record.storePath ≠ request.storePath)
        "store path is already registered to a tenant") := by
    simp only [TenantControlPlane.admits, provisionable, bind_assoc]
  rw [hsplit, h]
  rfl

theorem run_provision {request : ProvisionRequest} :
    (d.provision occasion request).run cells =
      let out := (tenants cells).provision d.codec occasion (cells .disk) request
      (withTenants cells out.1.1 out.1.2, .tenant out.2) := by
  rw [provision, TenantControlPlane.provision]
  cases hrequest : provisionable occasion request with
  | error e => simp [orFail, admits_of_provisionable hrequest]
  | ok u =>
      simp only [orFail, Program.run_read]
      change Program.run (orFail _ ((tenants cells).admits occasion.host request) _) cells = _
      cases hadmits : (tenants cells).admits occasion.host request with
      | error e => simp [orFail]
      | ok u =>
          simp only [orFail, run_makeDataPlane]
          cases hmade : occasion.host.createDirAll (cells .disk) request.storePath with
          | none => simp
          | some made =>
              dsimp only
              cases hopened : occasion.host.openStore made request.storePath with
              | none => simp [withTenants]
              | some opened => simp [withTenants]

theorem run_confirmPurge {tenantId confirmation : String} :
    (d.confirmPurge occasion tenantId confirmation).run cells =
      let out := (tenants cells).apply d.codec occasion (cells .disk)
        (.confirmPurge tenantId confirmation)
      (withTenants cells out.1.1 out.1.2, .tenant out.2) := by
  rw [confirmPurge, TenantControlPlane.apply]
  by_cases hconfirm : confirmation = tenantId
  · simp only [Except.require, hconfirm, if_true, orFail, Program.run_read]
    change Program.run (orFail _ ((tenants cells).confirmPurge d.codec occasion tenantId _) _)
      cells = _
    cases hresult : (tenants cells).confirmPurge d.codec occasion tenantId tenantId with
    | error e => simp [orFail]
    | ok out => simp [orFail, withTenants]
  · have hresult : (tenants cells).confirmPurge d.codec occasion tenantId confirmation =
        .error "purge confirmation must repeat the tenant id exactly" := by
      rw [TenantControlPlane.confirmPurge, Except.require, if_neg hconfirm]
      rfl
    simp [Except.require, hconfirm, orFail, hresult]

/-- Alone, a call of the tenants' control plane is the function of the plane. -/
theorem run_tenantSteps (call : TenantCall) :
    (d.tenantSteps occasion call).run cells =
      let out := (tenants cells).apply d.codec occasion (cells .disk) call
      (withTenants cells out.1.1 out.1.2, .tenant out.2) := by
  cases call with
  | provision request => exact run_provision
  | suspend tenantId => exact run_changeTenant fun plane ↦ plane.suspend d.codec occasion tenantId
  | activate tenantId => exact run_changeTenant fun plane ↦ plane.activate tenantId
  | requestPurge tenantId =>
      exact run_changeTenant fun plane ↦ plane.requestPurge d.codec occasion tenantId
  | confirmPurge tenantId confirmation => exact run_confirmPurge

/-- What a call makes of the teams and the disk, and its answer. -/
def settledTeams (cells : SharedCells)
    (out : (TeamControlPlane × FileTree Char) × Except String TeamReply) :
    SharedCells × SharedReply :=
  (withTeams cells out.1.1 out.1.2, .team out.2)

/-- A change of the workspaces that leaves the invitations alone. -/
def WorkspacesOnly {β : Type} (change : TeamControlPlane → Except String (TeamControlPlane × β)) :
    Prop :=
  ∀ plane : TeamControlPlane, change plane =
    (change { plane with invitations := [] }).map fun out ↦
      ({ out.1 with invitations := plane.invitations }, out.2)

theorem workspacesOnly_update {β : Type} (workspaceId : String)
    (f : WorkspaceRecord → Except String (WorkspaceRecord × β)) :
    WorkspacesOnly fun plane ↦ plane.update workspaceId f := by
  intro plane
  simp only [TeamControlPlane.update]
  cases Registry.updateFirst (fun workspace : WorkspaceRecord ↦ workspace.workspaceId == workspaceId)
    ("unknown workspace " ++ workspaceId) f plane.registry <;> rfl

theorem run_changeWorkspace {β : Type} (reply : β → TeamReply)
    {change : TeamControlPlane → Except String (TeamControlPlane × β)}
    (hchange : WorkspacesOnly change) :
    (changeWorkspace reply change).run cells = settledTeams cells
      ((teams cells).settled (cells .disk) reply (change (teams cells))) := by
  rw [changeWorkspace, Program.run_read, hchange (teams cells)]
  change Program.run (orFail _ (change (teamPlane (cells .teamRegistry) [])) _) cells =
    settledTeams cells ((teams cells).settled (cells .disk) reply
      ((change (teamPlane (cells .teamRegistry) [])).map _))
  cases hresult : change (teamPlane (cells .teamRegistry) []) with
  | error e => simp [orFail, TeamControlPlane.settled, Except.map, settledTeams]
  | ok out => simp [orFail, TeamControlPlane.settled, Except.map, settledTeams, withTeams]

theorem admits_of_creatable {request : CreateWorkspaceRequest} {e : String}
    (h : creatable occasion request = .error e) :
    (teams cells).admits occasion.host request = .error e := by
  have hsplit : (teams cells).admits occasion.host request =
      (creatable occasion request >>= fun _ ↦ do
      Except.require ((teams cells).registry.length < registryWorkspaceLimit)
        ("workspace limit of " ++ toString registryWorkspaceLimit ++ " reached")
      Except.require (∀ record ∈ (teams cells).registry, record.storePath ≠ request.storePath)
        "store path is already registered to a workspace") := by
    simp only [TeamControlPlane.admits, creatable, bind_assoc]
  rw [hsplit, h]
  rfl

theorem run_createWorkspace {request : CreateWorkspaceRequest} :
    (d.createWorkspace occasion request).run cells = settledTeams cells
      ((teams cells).apply d.codec occasion (cells .disk) (.createWorkspace request)) := by
  rw [createWorkspace, TeamControlPlane.apply, TeamControlPlane.createWorkspace]
  cases hrequest : creatable occasion request with
  | error e => simp [orFail, admits_of_creatable hrequest, settledTeams, Except.map]
  | ok u =>
      simp only [orFail, Program.run_read]
      change Program.run (orFail _ ((teams cells).admits occasion.host request) _) cells = _
      cases hadmits : (teams cells).admits occasion.host request with
      | error e => simp [orFail, settledTeams, Except.map]
      | ok u =>
          simp only [orFail, run_makeDataPlane]
          cases hmade : occasion.host.createDirAll (cells .disk) request.storePath with
          | none => simp [settledTeams, Except.map]
          | some made =>
              dsimp only
              cases hopened : occasion.host.openStore made request.storePath with
              | none => simp [settledTeams, Except.map]
              | some opened => simp [settledTeams, Except.map, withTeams]

theorem invite_of_invitable {workspaceId actor invitee e : String} {role : MemberRole}
    {ttlSeconds : ℤ} (hrole : role ≠ .owner)
    (h : invitable (teams cells) workspaceId actor invitee = .error e) :
    (teams cells).invite d.codec occasion workspaceId actor invitee role ttlSeconds =
      .error e := by
  rw [TeamControlPlane.invite, Except.require, if_pos hrole]
  rw [invitable] at h
  cases hw : ((teams cells).workspace workspaceId).elim
      (.error ("unknown workspace " ++ workspaceId) : Except String WorkspaceRecord) .ok with
  | error e' =>
      rw [hw] at h
      obtain rfl : e' = e := Except.error.inj h
      rfl
  | ok w =>
      rw [hw] at h
      change (w.authorize actor .invite >>= _) = _ at h
      change (w.authorize actor .invite >>= _) = _
      cases hauth : w.authorize actor .invite with
      | error e' =>
          rw [hauth] at h
          obtain rfl : e' = e := Except.error.inj h
          rfl
      | ok r =>
          rw [hauth] at h
          change Except.require _ _ = _ at h
          change (Except.require _ _ >>= _) = _
          rw [h]
          rfl

theorem registry_invite {plane plane' : TeamControlPlane} {workspaceId actor invitee : String}
    {role : MemberRole} {ttlSeconds : ℤ} {i : Invitation}
    (h : plane.invite d.codec occasion workspaceId actor invitee role ttlSeconds =
      .ok (plane', i)) : plane'.registry = plane.registry := by
  cases TeamControlPlane.effect_invite h
  rfl

theorem run_invite {workspaceId actor invitee : String} {role : MemberRole} {ttlSeconds : ℤ} :
    (d.invite occasion workspaceId actor invitee role ttlSeconds).run cells = settledTeams cells
      ((teams cells).apply d.codec occasion (cells .disk)
        (.invite workspaceId actor invitee role ttlSeconds)) := by
  rw [invite, TeamControlPlane.apply]
  by_cases hrole : role ≠ .owner
  · simp only [Except.require, if_pos hrole, orFail, Program.run_read]
    change Program.run (orFail _ (invitable (teams cells) workspaceId actor invitee) _) cells = _
    cases hchecks : invitable (teams cells) workspaceId actor invitee with
    | error e =>
        rw [invite_of_invitable hrole hchecks]
        simp [orFail, settledTeams, TeamControlPlane.settled]
    | ok u =>
        simp only [orFail, Program.run_read]
        change Program.run (orFail _ ((teams cells).invite d.codec occasion workspaceId actor
          invitee role ttlSeconds) _) cells = _
        cases hresult : (teams cells).invite d.codec occasion workspaceId actor invitee role
            ttlSeconds with
        | error e => simp [orFail, settledTeams, TeamControlPlane.settled]
        | ok out =>
            have hregistry : out.1.registry = cells .teamRegistry := registry_invite hresult
            simp [orFail, settledTeams, TeamControlPlane.settled, withTeams, hregistry]
  · have hresult : (teams cells).invite d.codec occasion workspaceId actor invitee role
        ttlSeconds = .error "owners are made at workspace creation, not by invitation" := by
      rw [TeamControlPlane.invite, Except.require, if_neg hrole]
      rfl
    rw [hresult, Except.require, if_neg hrole]
    simp [orFail, settledTeams, TeamControlPlane.settled]

/-- The invitations change as they do beside other workspaces. -/
theorem updateInvitation_eq {β : Type} (plane : TeamControlPlane) (registry : List WorkspaceRecord)
    (invitationId : String) (f : Invitation → Except String (Invitation × β)) :
    plane.updateInvitation invitationId f =
      (TeamControlPlane.updateInvitation { plane with registry := registry } invitationId f).map
        fun out ↦ ({ plane with invitations := out.1.invitations }, out.2) := by
  simp only [TeamControlPlane.updateInvitation]
  cases Registry.updateFirst (fun invitation : Invitation ↦
    invitation.invitationId == invitationId) ("unknown invitation " ++ invitationId) f
    plane.invitations <;> rfl

/-- Saved invitations are replaced by those saved later. -/
theorem settledTeams_update (invitations : List Invitation)
    (out : (TeamControlPlane × FileTree Char) × Except String TeamReply) :
    settledTeams (Function.update cells .teamInvitations invitations) out =
      settledTeams cells out := by
  have hcells : withTeams (Function.update cells .teamInvitations invitations) out.1.1 out.1.2 =
      withTeams cells out.1.1 out.1.2 := by
    funext key
    cases key <;> rfl
  rw [settledTeams, settledTeams, hcells]

theorem run_acceptInvitation {invitationId acceptor : String} :
    (d.acceptInvitation occasion invitationId acceptor).run cells = settledTeams cells
      ((teams cells).apply d.codec occasion (cells .disk)
        (.acceptInvitation invitationId acceptor)) := by
  rw [acceptInvitation, TeamControlPlane.apply, TeamControlPlane.acceptInvitation,
    updateInvitation_eq (teams cells) [], Program.run_read]
  change Program.run (orFail _ (TeamControlPlane.updateInvitation
    { teams cells with registry := [] } _ _) _) cells = _
  cases htaken : TeamControlPlane.updateInvitation { teams cells with registry := [] }
      invitationId (TeamControlPlane.takeInvitation d.codec occasion acceptor) with
  | error e => simp [orFail, Except.map, settledTeams]
  | ok out =>
      obtain ⟨saved, taken, expired⟩ := out
      simp only [orFail, Except.map, Program.run_write]
      cases expired with
      | true => simp [settledTeams, withTeams]
      | false =>
          have hsaved : teams (Function.update cells .teamInvitations saved.invitations) =
              { teams cells with invitations := saved.invitations } := rfl
          simp only [Bool.false_eq_true, if_false]
          rw [run_changeWorkspace _ (workspacesOnly_update _ _), settledTeams_update, hsaved]
          cases hjoined : TeamControlPlane.update
              { teams cells with invitations := saved.invitations } taken.workspaceId
              (TeamControlPlane.admitMember d.codec occasion acceptor taken.role) with
          | error e => rfl
          | ok joined => rfl

theorem registry_revokeInvitation {plane plane' : TeamControlPlane}
    {invitationId actor : String} {i : Invitation}
    (h : plane.revokeInvitation invitationId actor = .ok (plane', i)) :
    plane'.registry = plane.registry := by
  obtain ⟨pre, i, post, i', -, -, -, -, rfl⟩ := Iff.mp TeamControlPlane.updateInvitation_eq_ok h
  rfl

theorem run_revokeInvitation {invitationId actor : String} :
    (revokeInvitation invitationId actor).run cells = settledTeams cells
      ((teams cells).apply d.codec occasion (cells .disk)
        (.revokeInvitation invitationId actor)) := by
  rw [revokeInvitation, TeamControlPlane.apply, Program.run_read]
  cases hfound : (cells .teamInvitations).find? fun i ↦ i.invitationId == invitationId with
  | none =>
      have hresult : (teams cells).revokeInvitation invitationId actor =
          .error ("unknown invitation " ++ invitationId) := by
        rw [TeamControlPlane.revokeInvitation, TeamControlPlane.updateInvitation,
          invitations_teams, Registry.updateFirst_of_find?_eq_none hfound]
        rfl
      simp [orFail, hresult, TeamControlPlane.settled, settledTeams]
  | some i =>
      simp only [Option.elim, orFail, Program.run_read]
      change Program.run (orFail _ ((teams cells).revokeInvitation invitationId actor) _)
        cells = _
      cases hresult : (teams cells).revokeInvitation invitationId actor with
      | error e => simp [orFail, settledTeams, TeamControlPlane.settled]
      | ok out =>
          have hregistry : out.1.registry = cells .teamRegistry :=
            registry_revokeInvitation hresult
          simp [orFail, settledTeams, TeamControlPlane.settled, withTeams, hregistry]

theorem workspacesOnly_confirmDelete (workspaceId actor confirmation : String) :
    WorkspacesOnly fun plane ↦
      plane.confirmDelete d.codec occasion workspaceId actor confirmation := by
  intro plane
  simp only [TeamControlPlane.confirmDelete]
  by_cases hconfirm : confirmation = workspaceId
  · rw [Except.require, if_pos hconfirm]
    exact workspacesOnly_update workspaceId _ plane
  · rw [Except.require, if_neg hconfirm]
    rfl

theorem run_confirmDelete {workspaceId actor confirmation : String} :
    (d.confirmDelete occasion workspaceId actor confirmation).run cells = settledTeams cells
      ((teams cells).apply d.codec occasion (cells .disk)
        (.confirmDelete workspaceId actor confirmation)) := by
  rw [confirmDelete, TeamControlPlane.apply]
  by_cases hconfirm : confirmation = workspaceId
  · subst hconfirm
    simp only [Except.require, if_true, orFail, Program.run_read]
    have hother : (teams cells).confirmDelete d.codec occasion confirmation actor confirmation =
        ((teamPlane (cells .teamRegistry) []).confirmDelete d.codec occasion confirmation actor
          confirmation).map fun out ↦
            ({ out.1 with invitations := (teams cells).invitations }, out.2) :=
      workspacesOnly_confirmDelete confirmation actor confirmation (teams cells)
    rw [hother]
    cases hresult : (teamPlane (cells .teamRegistry) []).confirmDelete d.codec occasion
        confirmation actor confirmation with
    | error e => simp [Except.map, settledTeams]
    | ok out => simp [Except.map, settledTeams, withTeams]
  · have hresult : (teams cells).confirmDelete d.codec occasion workspaceId actor confirmation =
        .error "deletion confirmation must repeat the workspace id exactly" := by
      rw [TeamControlPlane.confirmDelete, Except.require, if_neg hconfirm]
      rfl
    rw [hresult, Except.require, if_neg hconfirm]
    simp [orFail, settledTeams]

/-- Alone, a call of the teams' control plane is the function of the plane. -/
theorem run_teamSteps (call : TeamCall) :
    (d.teamSteps occasion call).run cells = settledTeams cells
      ((teams cells).apply d.codec occasion (cells .disk) call) := by
  cases call with
  | createWorkspace request => exact run_createWorkspace
  | invite workspaceId actor invitee role ttlSeconds => exact run_invite
  | acceptInvitation invitationId acceptor => exact run_acceptInvitation
  | revokeInvitation invitationId actor => exact run_revokeInvitation
  | removeMember workspaceId actor target =>
      exact run_changeWorkspace .member (workspacesOnly_update _ _)
  | leave workspaceId memberId => exact run_changeWorkspace .member (workspacesOnly_update _ _)
  | requestDelete workspaceId actor =>
      exact run_changeWorkspace .workspace (workspacesOnly_update _ _)
  | confirmDelete workspaceId actor confirmation => exact run_confirmDelete

/-- The values that a call changes with its last access. -/
def Registered (key : Shared) : Prop := key ≠ .disk ∧ key ≠ .teamInvitations

theorem writesLast_orFail {key : Shared} {β γ : Type} {reply : Except String β → SharedReply}
    {x : Except String γ} {rest : γ → Steps} (h : ∀ c, (rest c).WritesLast key) :
    (orFail reply x rest).WritesLast key := by
  cases x with
  | error e => exact trivial
  | ok c => exact h c

theorem writesLast_write {key key' : Shared} {value : key'.Value} {result : SharedReply} :
    (Program.write key' value (.done result) : Steps).WritesLast key :=
  ⟨fun _ _ ↦ ⟨result, rfl⟩, fun _ ↦ trivial⟩

theorem writesLast_makeDataPlane {key : Shared} (hkey : Registered key) {β : Type}
    {reply : Except String β → SharedReply} {failure path : String} {rest : Steps}
    (h : rest.WritesLast key) : (makeDataPlane occasion reply failure path rest).WritesLast key := by
  refine ⟨fun heq ↦ absurd heq.symm hkey.1, fun tree ↦ ?_⟩
  dsimp only
  split
  · exact trivial
  · refine ⟨fun heq ↦ absurd heq.symm hkey.1, fun made ↦ ?_⟩
    dsimp only
    split
    · exact trivial
    · exact h

theorem writesLast_changeTenant {key : Shared}
    (change : TenantControlPlane → Except String (TenantControlPlane × TenantRecord)) :
    (changeTenant change).WritesLast key :=
  fun _ ↦ writesLast_orFail fun _ ↦ writesLast_write

theorem writesLast_changeWorkspace {key : Shared} {β : Type} (reply : β → TeamReply)
    (change : TeamControlPlane → Except String (TeamControlPlane × β)) :
    (changeWorkspace reply change).WritesLast key :=
  fun _ ↦ writesLast_orFail fun _ ↦ writesLast_write

theorem writesLast_tenantSteps {key : Shared} (hkey : Registered key) (call : TenantCall) :
    (d.tenantSteps occasion call).WritesLast key := by
  cases call with
  | provision request =>
      exact writesLast_orFail fun _ _ ↦ writesLast_orFail fun _ ↦
        writesLast_makeDataPlane hkey writesLast_write
  | suspend tenantId =>
      rw [tenantSteps]
      exact writesLast_changeTenant _
  | activate tenantId =>
      rw [tenantSteps]
      exact writesLast_changeTenant _
  | requestPurge tenantId =>
      rw [tenantSteps]
      exact writesLast_changeTenant _
  | confirmPurge tenantId confirmation =>
      exact writesLast_orFail fun _ _ ↦ writesLast_orFail fun _ ↦
        ⟨fun heq ↦ absurd heq.symm hkey.1, fun _ ↦ writesLast_write⟩

theorem writesLast_teamSteps {key : Shared} (hkey : Registered key) (call : TeamCall) :
    (d.teamSteps occasion call).WritesLast key := by
  cases call with
  | createWorkspace request =>
      exact writesLast_orFail fun _ _ ↦ writesLast_orFail fun _ ↦
        writesLast_makeDataPlane hkey writesLast_write
  | invite workspaceId actor invitee role ttlSeconds =>
      exact writesLast_orFail fun _ _ ↦ writesLast_orFail fun _ _ ↦
        writesLast_orFail fun _ ↦ writesLast_write
  | acceptInvitation invitationId acceptor =>
      refine fun _ ↦ writesLast_orFail fun out ↦
        ⟨fun heq ↦ absurd heq.symm hkey.2, fun _ ↦ ?_⟩
      split
      · exact trivial
      · exact writesLast_changeWorkspace _ _
  | revokeInvitation invitationId actor =>
      exact fun _ ↦ writesLast_orFail fun _ _ ↦ writesLast_orFail fun _ ↦ writesLast_write
  | removeMember workspaceId actor target =>
      rw [teamSteps]
      exact writesLast_changeWorkspace _ _
  | leave workspaceId memberId =>
      rw [teamSteps]
      exact writesLast_changeWorkspace _ _
  | requestDelete workspaceId actor =>
      rw [teamSteps]
      exact writesLast_changeWorkspace _ _
  | confirmDelete workspaceId actor confirmation =>
      exact writesLast_orFail fun _ _ ↦ writesLast_orFail fun _ ↦
        ⟨fun heq ↦ absurd heq.symm hkey.1, fun _ ↦ writesLast_write⟩

/-- Every call writes a registry, the ledger or the gate with its last access. -/
theorem writesLast_steps {key : Shared} (hkey : Registered key) (op : SharedOperation) :
    (d.steps op).WritesLast key := by
  obtain ⟨call, occasion⟩ := op
  cases call with
  | acquireMaintenanceGate reason =>
      rintro (_ | gate)
      · exact writesLast_write
      · exact trivial
  | releaseMaintenanceGate =>
      rintro (_ | gate)
      · exact trivial
      · exact writesLast_write
  | recordMigration id maintenanceGated reversible =>
      intro ledger
      dsimp only
      split
      · exact trivial
      · split
        · rintro (_ | gate)
          · exact trivial
          · exact fun _ ↦ writesLast_write
        · exact fun _ ↦ writesLast_write
  | listMigrations => exact fun _ ↦ trivial
  | tenant call => exact writesLast_tenantSteps hkey call
  | listTenants => exact fun _ ↦ trivial
  | team call => exact writesLast_teamSteps hkey call
  | listWorkspaces => exact fun _ ↦ trivial
  | authorize workspaceId memberId operation => exact fun _ ↦ trivial

end SharedStore

end Cortana
