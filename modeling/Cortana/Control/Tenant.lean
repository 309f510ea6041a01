import Cortana.Control.Host
import Cortana.Core.Registry
import Cortana.Text.Search

/-!
# The tenant control plane

`tenant.rs`: a registry of tenants, each with a data plane of its own.  Every
call loads the registry, changes one row or adds one, and saves it; a call that
fails saves nothing.
-/

namespace Cortana

open Pathname

inductive TenantStatus where
  | provisioning
  | active
  | suspended
  | purging
  | purged
deriving DecidableEq, Repr

structure TenantRecord where
  tenantId : String
  name : String
  residency : String
  sourceOfTruth : String
  status : TenantStatus
  storePath : String
  maxDocuments : UInt64
  storageQuotaBytes : UInt64
  retentionDays : UInt32
  createdAt : String
  suspendedAt : Option String
  purgeRequestedAt : Option String
  purgedAt : Option String
  purgeReceiptDigest : Option String

structure ProvisionRequest where
  name : String
  residency : String
  sourceOfTruth : String
  storePath : String
  maxDocuments : UInt64
  storageQuotaBytes : UInt64
  retentionDays : UInt32

/-- `TenantControlPlane`: the rows stored in the registry.  The path it was opened by
belongs to the process. -/
structure TenantControlPlane where
  registry : List TenantRecord

def registryTenantLimit : ℕ := 1000

/-- `str::trim` with `to_string`. -/
def trimmed (text : String) : String := String.ofList (ByteText.trim text.toList)

/-- The digest a receipt keeps of a destroyed data plane. -/
def receiptDigest (codec : ControlCodec) (label : String) (id destroyedAt storePath : String) :
    String :=
  "sha256:" ++ hexText codec.sha (bytes label ++ bytes id ++ bytes destroyedAt ++ bytes storePath)

namespace TenantControlPlane

variable (codec : ControlCodec) (occasion : Occasion)

/-- The checks of `provision` before it touches the disk. -/
@[grind =] def admits (plane : TenantControlPlane) (host : Host) (request : ProvisionRequest) :
    Except String Unit := do
  Except.require (trimmed request.name ≠ "") "tenant name cannot be empty"
  Except.require (request.sourceOfTruth ∈ ["local", "cloud", "hybrid"])
    "source of truth must be local, cloud, or hybrid"
  Except.require (¬startsWith host.registryFile.toList request.storePath.toList = true)
    "tenant data plane cannot contain the control-plane registry"
  Except.require (plane.registry.length < registryTenantLimit)
    ("tenant limit of " ++ toString registryTenantLimit ++ " reached")
  Except.require (∀ record ∈ plane.registry, record.storePath ≠ request.storePath)
    "store path is already registered to a tenant"

/-- The row `provision` adds. -/
@[grind =] def provisioned (request : ProvisionRequest) : TenantRecord where
  tenantId := occasion.newId
  name := trimmed request.name
  residency := trimmed request.residency
  sourceOfTruth := request.sourceOfTruth
  status := .active
  storePath := request.storePath
  maxDocuments := request.maxDocuments
  storageQuotaBytes := request.storageQuotaBytes
  retentionDays := request.retentionDays
  createdAt := codec.rfc3339 occasion.now
  suspendedAt := none
  purgeRequestedAt := none
  purgedAt := none
  purgeReceiptDigest := none

/-- `TenantControlPlane::provision`. -/
def provision (plane : TenantControlPlane) (tree : FileTree Char) (request : ProvisionRequest) :
    (TenantControlPlane × FileTree Char) × Except String TenantRecord :=
  match plane.admits occasion.host request with
  | .error e => ((plane, tree), .error e)
  | .ok () =>
      match occasion.host.createDirAll tree request.storePath with
      | none =>
          ((plane, tree), .error ("failed to create data plane at " ++ request.storePath))
      | some made =>
          match occasion.host.openStore made request.storePath with
          | none => ((plane, made), .error "unable to open database file")
          | some opened =>
              let record := provisioned codec occasion request
              (({ plane with registry := plane.registry ++ [record] }, opened), .ok record)

/-- `record_mut`, a change of the row, and `save_registry`. -/
@[grind =] def update (plane : TenantControlPlane) (tenantId : String)
    (change : TenantRecord → Except String TenantRecord) :
    Except String (TenantControlPlane × TenantRecord) :=
  (Registry.updateFirst (fun record : TenantRecord ↦ record.tenantId == tenantId)
    ("unknown tenant " ++ tenantId) (fun record ↦ (change record).map fun r ↦ (r, r))
    plane.registry).map fun out ↦ ({ plane with registry := out.1 }, out.2)

def suspendRecord (record : TenantRecord) : Except String TenantRecord := do
  Except.require (record.status = .active) "only active tenants can be suspended"
  pure { record with status := .suspended, suspendedAt := some (codec.rfc3339 occasion.now) }

def activateRecord (record : TenantRecord) : Except String TenantRecord := do
  Except.require (record.status = .suspended) "only suspended tenants can be reactivated"
  pure { record with status := .active, suspendedAt := none }

def requestPurgeRecord (record : TenantRecord) : Except String TenantRecord := do
  Except.require (record.status = .active ∨ record.status = .suspended)
    "only active or suspended tenants can enter purging"
  pure { record with status := .purging, purgeRequestedAt := some (codec.rfc3339 occasion.now) }

def confirmPurgeRecord (tenantId : String) (record : TenantRecord) :
    Except String TenantRecord := do
  Except.require (record.status = .purging)
    ("tenant " ++ tenantId ++ " has no recorded purge intent")
  let purgedAt := codec.rfc3339 occasion.now
  pure
    { record with
      status := .purged
      purgedAt := some purgedAt
      purgeReceiptDigest :=
        some (receiptDigest codec "cortana.tenant.purge.v1" tenantId purgedAt record.storePath) }

/-- `TenantControlPlane::suspend`. -/
def suspend (plane : TenantControlPlane) (tenantId : String) :=
  plane.update tenantId (suspendRecord codec occasion)

/-- `TenantControlPlane::activate`. -/
def activate (plane : TenantControlPlane) (tenantId : String) :=
  plane.update tenantId activateRecord

/-- `TenantControlPlane::request_purge`. -/
def requestPurge (plane : TenantControlPlane) (tenantId : String) :=
  plane.update tenantId (requestPurgeRecord codec occasion)

/-- `TenantControlPlane::confirm_purge`, the data plane apart. -/
def confirmPurge (plane : TenantControlPlane) (tenantId confirmation : String) :
    Except String (TenantControlPlane × TenantRecord) := do
  Except.require (confirmation = tenantId) "purge confirmation must repeat the tenant id exactly"
  plane.update tenantId (confirmPurgeRecord codec occasion tenantId)

end TenantControlPlane

/-- The calls that change a tenant control plane. -/
inductive TenantCall where
  | provision (request : ProvisionRequest)
  | suspend (tenantId : String)
  | activate (tenantId : String)
  | requestPurge (tenantId : String)
  | confirmPurge (tenantId confirmation : String)

namespace TenantControlPlane

variable (codec : ControlCodec) (occasion : Occasion)

/-- A call that changes the registry only. -/
@[grind =] def settled (plane : TenantControlPlane) (tree : FileTree Char)
    (result : Except String (TenantControlPlane × TenantRecord)) :
    (TenantControlPlane × FileTree Char) × Except String TenantRecord :=
  match result with
  | .error e => ((plane, tree), .error e)
  | .ok (plane', record) => ((plane', tree), .ok record)

/-- One call on the registry and the disk.  A purge removes the data plane
between its checks and the change of the row. -/
def apply (plane : TenantControlPlane) (tree : FileTree Char) :
    TenantCall → (TenantControlPlane × FileTree Char) × Except String TenantRecord
  | .provision request => plane.provision codec occasion tree request
  | .suspend tenantId => plane.settled tree (plane.suspend codec occasion tenantId)
  | .activate tenantId => plane.settled tree (plane.activate tenantId)
  | .requestPurge tenantId => plane.settled tree (plane.requestPurge codec occasion tenantId)
  | .confirmPurge tenantId confirmation =>
      match plane.confirmPurge codec occasion tenantId confirmation with
      | .error e => ((plane, tree), .error e)
      | .ok (plane', record) => ((plane', occasion.host.destroy tree record.storePath), .ok record)

end TenantControlPlane

end Cortana
