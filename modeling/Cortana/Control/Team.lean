import Cortana.Control.Tenant

/-!
# The team control plane

`team.rs`: workspaces with members, and invitations to them.  The workspaces
and the invitations are two lists that are loaded and saved apart; accepting an
invitation saves the second one before it looks at the first.
-/

namespace Cortana

open Pathname

inductive MemberRole where
  | reader
  | contributor
  | admin
  | owner
deriving DecidableEq, Repr

/-- The derived order of the roles. -/
def MemberRole.rank : MemberRole → ℕ
  | reader => 0
  | contributor => 1
  | admin => 2
  | owner => 3

instance : LE MemberRole := ⟨fun a b ↦ a.rank ≤ b.rank⟩

instance (a b : MemberRole) : Decidable (a ≤ b) := inferInstanceAs (Decidable (a.rank ≤ b.rank))

inductive WorkspaceStatus where
  | active
  | deleting
  | deleted
deriving DecidableEq, Repr

inductive AccessOperation where
  | read
  | write
  | invite
  | removeMember
  | manageRoles
  | deleteWorkspace
deriving DecidableEq, Repr

structure MemberRecord where
  memberId : String
  role : MemberRole
  joinedAt : String
  removedAt : Option String
deriving DecidableEq

structure WorkspaceRecord where
  workspaceId : String
  name : String
  residency : String
  status : WorkspaceStatus
  storePath : String
  createdAt : String
  members : List MemberRecord
  deletedAt : Option String
  purgeReceiptDigest : Option String
deriving DecidableEq

structure Invitation where
  invitationId : String
  workspaceId : String
  invitee : String
  role : MemberRole
  invitedBy : String
  invitedAt : String
  expiresAt : String
  state : String
deriving DecidableEq

structure CreateWorkspaceRequest where
  name : String
  residency : String
  storePath : String
  ownerMemberId : String

/-- `TeamControlPlane`: the two lists stored in the registry. -/
structure TeamControlPlane where
  registry : List WorkspaceRecord
  invitations : List Invitation

def registryWorkspaceLimit : ℕ := 500

def denied : String := "access denied"

/-- `allows`. -/
def MemberRole.allows (role : MemberRole) : AccessOperation → Bool
  | .read => true
  | .write => .contributor ≤ role
  | .invite => .admin ≤ role
  | .removeMember => .admin ≤ role
  | .manageRoles => role = .owner
  | .deleteWorkspace => role = .owner

/-- The record is the member's and not removed. -/
@[grind =] def MemberRecord.isActive (memberId : String) (member : MemberRecord) : Bool :=
  member.memberId == memberId && member.removedAt.isNone

/-- `active_member`. -/
@[grind =] def WorkspaceRecord.activeMember (workspace : WorkspaceRecord) (memberId : String) :
    Option MemberRecord :=
  workspace.members.find? (MemberRecord.isActive memberId)

/-- `TeamControlPlane::authorize_workspace`. -/
@[grind =] def WorkspaceRecord.authorize (workspace : WorkspaceRecord) (memberId : String)
    (operation : AccessOperation) : Except String MemberRole :=
  match workspace.activeMember memberId with
  | none => .error denied
  | some member =>
      if workspace.status ≠ .active then
        -- while deletion intent exists only the owner's delete operation passes
        if operation = .deleteWorkspace ∧ member.role = .owner then .ok member.role
        else .error denied
      else if member.role.allows operation then .ok member.role
      else .error denied

namespace TeamControlPlane

variable (codec : ControlCodec) (occasion : Occasion)

/-- The first workspace with the id. -/
@[grind =] def workspace (plane : TeamControlPlane) (workspaceId : String) :
    Option WorkspaceRecord :=
  plane.registry.find? fun workspace ↦ workspace.workspaceId == workspaceId

@[grind =] def admits (plane : TeamControlPlane) (host : Host) (request : CreateWorkspaceRequest) :
    Except String Unit := do
  Except.require (trimmed request.name ≠ "") "workspace name cannot be empty"
  Except.require (trimmed request.ownerMemberId ≠ "") "owner member id cannot be empty"
  Except.require (¬startsWith host.registryFile.toList request.storePath.toList = true)
    "workspace data plane cannot contain the control-plane registry"
  Except.require (plane.registry.length < registryWorkspaceLimit)
    ("workspace limit of " ++ toString registryWorkspaceLimit ++ " reached")
  Except.require (∀ record ∈ plane.registry, record.storePath ≠ request.storePath)
    "store path is already registered to a workspace"

@[grind =] def created (request : CreateWorkspaceRequest) : WorkspaceRecord where
  workspaceId := occasion.newId
  name := trimmed request.name
  residency := trimmed request.residency
  status := .active
  storePath := request.storePath
  createdAt := codec.rfc3339 occasion.now
  members :=
    [{ memberId := request.ownerMemberId, role := .owner
       joinedAt := codec.rfc3339 occasion.now, removedAt := none }]
  deletedAt := none
  purgeReceiptDigest := none

/-- `TeamControlPlane::create_workspace`. -/
def createWorkspace (plane : TeamControlPlane) (tree : FileTree Char)
    (request : CreateWorkspaceRequest) :
    (TeamControlPlane × FileTree Char) × Except String WorkspaceRecord :=
  match plane.admits occasion.host request with
  | .error e => ((plane, tree), .error e)
  | .ok () =>
      match occasion.host.createDirAll tree request.storePath with
      | none =>
          ((plane, tree),
            .error ("failed to create workspace data plane at " ++ request.storePath))
      | some made =>
          match occasion.host.openStore made request.storePath with
          | none => ((plane, made), .error "unable to open database file")
          | some opened =>
              let record := created codec occasion request
              (({ plane with registry := plane.registry ++ [record] }, opened), .ok record)

/-- `workspace_mut`, a change of the row with a result, and `save_registry`. -/
@[grind =] def update {β : Type} (plane : TeamControlPlane) (workspaceId : String)
    (change : WorkspaceRecord → Except String (WorkspaceRecord × β)) :
    Except String (TeamControlPlane × β) :=
  (Registry.updateFirst (fun workspace : WorkspaceRecord ↦ workspace.workspaceId == workspaceId)
    ("unknown workspace " ++ workspaceId) change
    plane.registry).map fun out ↦ ({ plane with registry := out.1 }, out.2)

/-- The first invitation with the id is changed; the list is saved by the caller. -/
@[grind =] def updateInvitation {β : Type} (plane : TeamControlPlane) (invitationId : String)
    (change : Invitation → Except String (Invitation × β)) :
    Except String (TeamControlPlane × β) :=
  (Registry.updateFirst (fun invitation : Invitation ↦ invitation.invitationId == invitationId)
    ("unknown invitation " ++ invitationId) change
    plane.invitations).map fun out ↦ ({ plane with invitations := out.1 }, out.2)

/-- `TeamControlPlane::invite`. -/
def invite (plane : TeamControlPlane) (workspaceId actor invitee : String) (role : MemberRole)
    (ttlSeconds : ℤ) : Except String (TeamControlPlane × Invitation) := do
  Except.require (role ≠ .owner) "owners are made at workspace creation, not by invitation"
  let workspace ← (plane.workspace workspaceId).elim
    (.error ("unknown workspace " ++ workspaceId)) .ok
  let _ ← workspace.authorize actor .invite
  Except.require (workspace.activeMember invitee = none)
    ("member " ++ invitee ++ " is already active")
  let invitation : Invitation :=
    { invitationId := occasion.newId
      workspaceId := workspaceId
      invitee := invitee
      role := role
      invitedBy := actor
      invitedAt := codec.rfc3339 occasion.now
      expiresAt := codec.rfc3339 (occasion.now + ttlSeconds * 10 ^ 9)
      state := "pending" }
  Except.require (∀ existing ∈ plane.invitations,
      ¬(existing.workspaceId = workspaceId ∧ existing.invitee = invitee ∧
        existing.state = "pending"))
    ("an invitation for " ++ invitee ++ " is already pending")
  pure ({ plane with invitations := plane.invitations ++ [invitation] }, invitation)

/-- The first half of `accept_invitation`: the invitation that is saved, and
whether it had expired. -/
def takeInvitation (acceptor : String) (invitation : Invitation) :
    Except String (Invitation × (Invitation × Bool)) := do
  Except.require (invitation.state = "pending") ("invitation is " ++ invitation.state)
  Except.require (invitation.invitee = acceptor) denied
  let expiresAt ← (codec.instant invitation.expiresAt).elim
    (.error "invitation expiry is not a valid timestamp") .ok
  let expired := decide (expiresAt ≤ occasion.now)
  let taken := { invitation with state := if expired then "expired" else "accepted" }
  pure (taken, (taken, expired))

/-- The second half of `accept_invitation`. -/
def admitMember (acceptor : String) (role : MemberRole) (workspace : WorkspaceRecord) :
    Except String (WorkspaceRecord × MemberRecord) := do
  Except.require (workspace.status = .active) "workspace is not accepting members"
  Except.require (workspace.activeMember acceptor = none)
    ("member " ++ acceptor ++ " is already active")
  let member : MemberRecord :=
    { memberId := acceptor, role := role
      joinedAt := codec.rfc3339 occasion.now, removedAt := none }
  pure ({ workspace with members := workspace.members ++ [member] }, member)

/-- `TeamControlPlane::accept_invitation`: what it leaves behind also when it
fails, and its answer. -/
def acceptInvitation (plane : TeamControlPlane) (invitationId acceptor : String) :
    TeamControlPlane × Except String MemberRecord :=
  match plane.updateInvitation invitationId (takeInvitation codec occasion acceptor) with
  | .error e => (plane, .error e)
  | .ok (saved, taken, expired) =>
      if expired then (saved, .error ("invitation expired at " ++ taken.expiresAt))
      else
        match saved.update taken.workspaceId (admitMember codec occasion acceptor taken.role) with
        | .error e => (saved, .error e)
        | .ok (joined, member) => (joined, .ok member)

/-- `TeamControlPlane::revoke_invitation`. -/
def revokeInvitation (plane : TeamControlPlane) (invitationId actor : String) :
    Except String (TeamControlPlane × Invitation) :=
  plane.updateInvitation invitationId fun invitation ↦ do
    let workspace ← (plane.workspace invitation.workspaceId).elim
      (.error "unknown workspace") .ok
    let _ ← workspace.authorize actor .invite
    Except.require (invitation.state = "pending") ("invitation is " ++ invitation.state)
    let revoked := { invitation with state := "revoked" }
    pure (revoked, revoked)

/-- The active record of a member is closed. -/
@[grind =] def closeMember (memberId : String) (allowed : MemberRecord → Except String Unit)
    (workspace : WorkspaceRecord) : Except String (WorkspaceRecord × MemberRecord) :=
  (Registry.updateFirst (MemberRecord.isActive memberId) denied (fun member ↦ do
      allowed member
      let closed := { member with removedAt := some (codec.rfc3339 occasion.now) }
      pure (closed, closed))
    workspace.members).map fun out ↦ ({ workspace with members := out.1 }, out.2)

/-- `TeamControlPlane::remove_member`. -/
def removeMember (plane : TeamControlPlane) (workspaceId actor target : String) :
    Except String (TeamControlPlane × MemberRecord) :=
  plane.update workspaceId fun workspace ↦ do
    let actorRole ← workspace.authorize actor .removeMember
    closeMember codec occasion target (fun member ↦ do
      Except.require (member.role ≠ .owner) "owners are removed only through workspace deletion"
      Except.require (actorRole = .owner ∨ ¬actorRole ≤ member.role) denied) workspace

/-- `TeamControlPlane::leave`. -/
def leave (plane : TeamControlPlane) (workspaceId memberId : String) :
    Except String (TeamControlPlane × MemberRecord) :=
  plane.update workspaceId (closeMember codec occasion memberId fun member ↦
    Except.require (member.role ≠ .owner) "the owner leaves only through workspace deletion")

/-- `TeamControlPlane::request_delete`. -/
def requestDelete (plane : TeamControlPlane) (workspaceId actor : String) :
    Except String (TeamControlPlane × WorkspaceRecord) :=
  plane.update workspaceId fun workspace ↦ do
    let _ ← workspace.authorize actor .deleteWorkspace
    let deleting := { workspace with status := .deleting }
    pure (deleting, deleting)

/-- `TeamControlPlane::confirm_delete`, the data plane apart. -/
def confirmDelete (plane : TeamControlPlane) (workspaceId actor confirmation : String) :
    Except String (TeamControlPlane × WorkspaceRecord) := do
  Except.require (confirmation = workspaceId)
    "deletion confirmation must repeat the workspace id exactly"
  plane.update workspaceId fun workspace ↦ do
    let _ ← workspace.authorize actor .deleteWorkspace
    Except.require (workspace.status = .deleting)
      ("workspace " ++ workspaceId ++ " has no recorded deletion intent")
    let deletedAt := codec.rfc3339 occasion.now
    let deleted :=
      { workspace with
        status := .deleted
        deletedAt := some deletedAt
        purgeReceiptDigest :=
          some (receiptDigest codec "cortana.team.workspace-delete.v1" workspaceId deletedAt
            workspace.storePath) }
    pure (deleted, deleted)

end TeamControlPlane

/-- The calls that change a team control plane. -/
inductive TeamCall where
  | createWorkspace (request : CreateWorkspaceRequest)
  | invite (workspaceId actor invitee : String) (role : MemberRole) (ttlSeconds : ℤ)
  | acceptInvitation (invitationId acceptor : String)
  | revokeInvitation (invitationId actor : String)
  | removeMember (workspaceId actor target : String)
  | leave (workspaceId memberId : String)
  | requestDelete (workspaceId actor : String)
  | confirmDelete (workspaceId actor confirmation : String)

/-- What a call answers with. -/
inductive TeamReply where
  | workspace (record : WorkspaceRecord)
  | invitation (record : Invitation)
  | member (record : MemberRecord)

namespace TeamControlPlane

variable (codec : ControlCodec) (occasion : Occasion)

/-- A call that saves its list only when it succeeds. -/
@[grind =] def settled {β : Type} (plane : TeamControlPlane) (tree : FileTree Char)
    (reply : β → TeamReply) (result : Except String (TeamControlPlane × β)) :
    (TeamControlPlane × FileTree Char) × Except String TeamReply :=
  match result with
  | .error e => ((plane, tree), .error e)
  | .ok (plane', b) => ((plane', tree), .ok (reply b))

/-- One call on the registry and the disk.  A confirmed deletion removes the
data plane between its checks and the change of the row. -/
def apply (plane : TeamControlPlane) (tree : FileTree Char) :
    TeamCall → (TeamControlPlane × FileTree Char) × Except String TeamReply
  | .createWorkspace request =>
      let out := plane.createWorkspace codec occasion tree request
      (out.1, out.2.map .workspace)
  | .invite workspaceId actor invitee role ttlSeconds =>
      plane.settled tree .invitation
        (plane.invite codec occasion workspaceId actor invitee role ttlSeconds)
  | .acceptInvitation invitationId acceptor =>
      let out := plane.acceptInvitation codec occasion invitationId acceptor
      ((out.1, tree), out.2.map .member)
  | .revokeInvitation invitationId actor =>
      plane.settled tree .invitation (plane.revokeInvitation invitationId actor)
  | .removeMember workspaceId actor target =>
      plane.settled tree .member (plane.removeMember codec occasion workspaceId actor target)
  | .leave workspaceId memberId =>
      plane.settled tree .member (plane.leave codec occasion workspaceId memberId)
  | .requestDelete workspaceId actor =>
      plane.settled tree .workspace (plane.requestDelete workspaceId actor)
  | .confirmDelete workspaceId actor confirmation =>
      match plane.confirmDelete codec occasion workspaceId actor confirmation with
      | .error e => ((plane, tree), .error e)
      | .ok (plane', record) =>
          ((plane', occasion.host.destroy tree record.storePath), .ok (.workspace record))

end TeamControlPlane

end Cortana
