import Cortana.Core.Registry
import Cortana.Core.Runs
import Cortana.Model.Digest
import Cortana.Text.Search

/-!
# Device identity

`device_identity.rs`: a registry of devices with their sealed secrets, on every
store of an account.  Whatever the stores do, in any order and with export files
of any age, there is one key that opens all a store retains, and what it opens
are the secrets of the public keys that the store shows.  The cryptographic
packages are a parameter.
-/

namespace Cortana

open ByteText

namespace Identity

/-! ## Keys -/

/-- `[u8; n]`. -/
abbrev Bytes (n : ℕ) : Type := {bytes : List UInt8 // bytes.length = n}

/-- What is used of other packages: unpadded Base64, HKDF-SHA256,
ChaCha20-Poly1305, the public keys of Ed25519 and of X25519, and SHA-256. -/
structure Packages where
  encode : List UInt8 → String
  decode : String → Except String (List UInt8)
  hkdf : List UInt8 → List UInt8 → String → Bytes 32
  encrypt : Bytes 32 → Bytes 12 → List UInt8 → Option (List UInt8)
  decrypt : Bytes 32 → Bytes 12 → List UInt8 → Option (List UInt8)
  signingPublic : Bytes 32 → List UInt8
  agreementPublic : Bytes 32 → List UInt8
  sha : Sha256

/-- Sealed material opens under the key that sealed it, and under no other one. -/
structure Packages.Sound (packages : Packages) : Prop where
  decodes : ∀ bytes, packages.decode (packages.encode bytes) = .ok bytes
  opens : ∀ key nonce material ciphertext,
    packages.encrypt key nonce material = some ciphertext →
      packages.decrypt key nonce ciphertext = some material
  only : ∀ key other nonce material ciphertext opened,
    packages.encrypt key nonce material = some ciphertext →
      packages.decrypt other nonce ciphertext = some opened → other = key

structure SealedBlob where
  nonce : String
  ciphertext : String

structure DeviceSecrets where
  signing : Bytes 32
  agreement : Bytes 32

def contractVersion : String := "cortana.identity.device.v1"

def keyHierarchyVersion : String := "kh1"

def rootSecretBytes : ℕ := 32

def deviceSecretBytes : ℕ := 64

variable (packages : Packages)

/-- `seal`, with the nonce that is drawn for it. -/
def sealBlob (key : Bytes 32) (nonce : Bytes 12) (plaintext : List UInt8) :
    Except String SealedBlob :=
  match packages.encrypt key nonce plaintext with
  | some ciphertext => .ok ⟨packages.encode nonce.val, packages.encode ciphertext⟩
  | none => .error "identity sealing failed"

def unsealBlob (key : Bytes 32) (blob : SealedBlob) : Except String (List UInt8) := do
  let nonce ← (packages.decode blob.nonce).mapError
    fun _ ↦ "sealed identity nonce is not valid base64"
  let ciphertext ← (packages.decode blob.ciphertext).mapError
    fun _ ↦ "sealed identity ciphertext is not valid base64"
  if h : nonce.length = 12 then
    match packages.decrypt key ⟨nonce, h⟩ ciphertext with
    | some material => .ok material
    | none => .error "sealed identity material failed to open"
  -- The source stops with this message.
  else .error "nonce is 12 bytes"

def deriveKey (ikm salt : List UInt8) (purpose : String) : Bytes 32 :=
  packages.hkdf ikm salt (contractVersion ++ "/" ++ keyHierarchyVersion ++ "/" ++ purpose)

def storageSealKey (recoveryKey : String) (salt : List UInt8) : Except String (Bytes 32) := do
  let recoveryBytes ← (packages.decode (String.ofList (trim recoveryKey.toList))).mapError
    fun _ ↦ "recovery key is not valid base64"
  Except.require (recoveryBytes.length = rootSecretBytes)
    ("recovery key must decode to 32 bytes, got " ++ toString recoveryBytes.length)
  return deriveKey packages recoveryBytes salt "at-rest-seal"

def toBeBytes (n : ℕ) : List UInt8 :=
  [.ofNat (n / 2 ^ 24), .ofNat (n / 2 ^ 16), .ofNat (n / 2 ^ 8), .ofNat n]

def purposeKey (rootSecret : Bytes 32) (generation : ℕ) (purpose : String) : Bytes 32 :=
  deriveKey packages rootSecret.val (toBeBytes generation) purpose

/-- The public key of the account root in a generation. -/
def rootSigningPublic (rootSecret : Bytes 32) (generation : ℕ) : String :=
  packages.encode
    (packages.signingPublic (purposeKey packages rootSecret generation "root-signing"))

def fingerprint (signingPublic : List UInt8) : String :=
  "sha256:" ++ String.ofList ((((packages.sha.digest signingPublic).take 8).flatMap fun b ↦
    [lowerHex (b / 16), lowerHex (b % 16)]).map fun b ↦ Char.ofNat b.toNat)

def sealDeviceSecrets (key : Bytes 32) (nonce : Bytes 12) (secrets : DeviceSecrets) :
    Except String SealedBlob :=
  sealBlob packages key nonce (secrets.signing.val ++ secrets.agreement.val)

def unsealDeviceSecrets (key : Bytes 32) (blob : SealedBlob) : Except String DeviceSecrets := do
  let material ← unsealBlob packages key blob
  if h : material.length = deviceSecretBytes then
    return ⟨⟨material.take 32, by simp [h, deviceSecretBytes]⟩,
      ⟨material.drop 32, by simp [h, deviceSecretBytes]⟩⟩
  else .error "sealed device material has an unexpected length"

/-! ## The registry -/

inductive DeviceStatus where
  | active
  | revoked (time : String)
  | wiped (time : String)

def DeviceStatus.isWiped : DeviceStatus → Bool
  | wiped _ => true
  | _ => false

structure RetiredPublicKey where
  fingerprint : String
  signingPublic : String
  retiredAt : String
  keyVersion : ℕ

structure DeviceSummary where
  deviceId : String
  name : String
  fingerprint : String
  signingPublic : String
  agreementPublic : String
  keyVersion : ℕ
  status : DeviceStatus
  createdAt : String
  rotatedAt : Option String
  lastSeen : Option String

structure DeviceEntry where
  summary : DeviceSummary
  sealedSecrets : Option SealedBlob
  retiredPublicKeys : List RetiredPublicKey

/-- `Registry`. -/
structure DeviceRegistry where
  contractVersion : String
  keyHierarchyVersion : String
  accountId : String
  createdAt : String
  rootGeneration : ℕ
  salt : String
  rootSigningPublic : String
  sealedRootSecret : Option SealedBlob
  devices : List DeviceEntry

structure DeviceExport where
  contractVersion : String
  keyHierarchyVersion : String
  accountId : String
  rootGeneration : ℕ
  rootSigningPublic : String
  salt : String
  deviceId : String
  devices : List DeviceSummary
  credential : SealedBlob

/-- What a call draws, and its readings of the clock. -/
structure Fresh where
  recoveryBytes : Bytes 32
  salt : Bytes 16
  rootSecret : Bytes 32
  rootNonce : Bytes 12
  nonces : ℕ → Bytes 12
  secrets : DeviceSecrets
  deviceId : String
  accountId : String
  times : ℕ → String

def deviceLimit : ℕ := 16

def retiredKeyHistoryLimit : ℕ := 8

variable (fresh : Fresh)

/-- `save`; the registry that is stored. -/
def save (registry : DeviceRegistry) : Except String DeviceRegistry := do
  Except.require (registry.contractVersion = contractVersion)
    ("registry contract version " ++ registry.contractVersion ++ " is not supported")
  Except.require (registry.keyHierarchyVersion = keyHierarchyVersion)
    ("registry key hierarchy " ++ registry.keyHierarchyVersion ++ " is not supported")
  return registry

def newEntry (key : Bytes 32) (deviceName : String) : Except String DeviceEntry := do
  let sealedSecrets ← sealDeviceSecrets packages key (fresh.nonces 0) fresh.secrets
  return {
    summary :=
      { deviceId := fresh.deviceId
        name := String.ofList (trim deviceName.toList)
        fingerprint := fingerprint packages (packages.signingPublic fresh.secrets.signing)
        signingPublic := packages.encode (packages.signingPublic fresh.secrets.signing)
        agreementPublic := packages.encode (packages.agreementPublic fresh.secrets.agreement)
        keyVersion := 1
        status := .active
        createdAt := fresh.times 0
        rotatedAt := none
        lastSeen := none }
    sealedSecrets := some sealedSecrets
    retiredPublicKeys := [] }

/-- `initialize` on a store without an identity. -/
def initializeIdentity (deviceName : String) : Except String DeviceRegistry := do
  Except.require (trim deviceName.toList ≠ []) "device name cannot be empty"
  let key ← storageSealKey packages (packages.encode fresh.recoveryBytes.val) fresh.salt.val
  let sealedRootSecret ← sealBlob packages key fresh.rootNonce fresh.rootSecret.val
  let entry ← newEntry packages fresh key deviceName
  save {
    contractVersion := contractVersion
    keyHierarchyVersion := keyHierarchyVersion
    accountId := fresh.accountId
    createdAt := fresh.times 1
    rootGeneration := 0
    salt := packages.encode fresh.salt.val
    rootSigningPublic := rootSigningPublic packages fresh.rootSecret 0
    sealedRootSecret := some sealedRootSecret
    devices := [entry] }

/-- The sealing key that a recovery key gives for a registry. -/
def registryKey (recoveryKey : String) (registry : DeviceRegistry) :
    Except String (Bytes 32) := do
  storageSealKey packages recoveryKey (← packages.decode registry.salt)

def verifyRecoveryPossession (key : Bytes 32) (registry : DeviceRegistry) : Except String Unit :=
  match registry.sealedRootSecret with
  | none => .error "this store does not hold account root material"
  | some blob =>
      match unsealBlob packages key blob with
      | .ok _ => .ok ()
      | .error _ => .error "recovery key does not open this identity registry"

def requireActive (entry : DeviceEntry) : Except String Unit :=
  match entry.summary.status with
  | .active => .ok ()
  | .revoked _ => .error ("device " ++ entry.summary.deviceId ++ " is revoked")
  | .wiped _ => .error ("device " ++ entry.summary.deviceId ++ " is wiped")

/-- The entry that `device_entry_mut` finds is changed. -/
def updateDevice (deviceId : String) (change : DeviceEntry → Except String DeviceEntry)
    (registry : DeviceRegistry) : Except String DeviceRegistry := do
  let (devices, ()) ← Registry.updateFirst
    (fun entry ↦ decide (entry.summary.deviceId = deviceId)) ("unknown device " ++ deviceId)
    (fun entry ↦ (change entry).map fun changed ↦ (changed, ())) registry.devices
  save { registry with devices := devices }

def enroll (recoveryKey deviceName : String) (registry : DeviceRegistry) :
    Except String DeviceRegistry := do
  Except.require (registry.devices.length < deviceLimit)
    "device limit of 16 reached; revoke or wipe a device first"
  Except.require (trim deviceName.toList ≠ []) "device name cannot be empty"
  let key ← registryKey packages recoveryKey registry
  verifyRecoveryPossession packages key registry
  let entry ← newEntry packages fresh key deviceName
  save { registry with devices := registry.devices ++ [entry] }

/-- The history of public keys keeps the newest ones. -/
def retire (keys : List RetiredPublicKey) (key : RetiredPublicKey) : List RetiredPublicKey :=
  if retiredKeyHistoryLimit < (keys ++ [key]).length then (keys ++ [key]).tail else keys ++ [key]

def rotateEntry (key : Bytes 32) (entry : DeviceEntry) : Except String DeviceEntry := do
  requireActive entry
  let sealedSecrets ← sealDeviceSecrets packages key (fresh.nonces 0) fresh.secrets
  Except.require (entry.summary.keyVersion ≠ 4294967295) "device key version exhausted"
  return {
    summary := { entry.summary with
      fingerprint := fingerprint packages (packages.signingPublic fresh.secrets.signing)
      signingPublic := packages.encode (packages.signingPublic fresh.secrets.signing)
      agreementPublic := packages.encode (packages.agreementPublic fresh.secrets.agreement)
      keyVersion := entry.summary.keyVersion + 1
      rotatedAt := some (fresh.times 1) }
    sealedSecrets := some sealedSecrets
    retiredPublicKeys := retire entry.retiredPublicKeys
      ⟨entry.summary.fingerprint, entry.summary.signingPublic, fresh.times 0,
        entry.summary.keyVersion⟩ }

def rotateDevice (recoveryKey deviceId : String) (registry : DeviceRegistry) :
    Except String DeviceRegistry := do
  let key ← registryKey packages recoveryKey registry
  verifyRecoveryPossession packages key registry
  updateDevice deviceId (rotateEntry packages fresh key) registry

def revokeEntry (now : String) (entry : DeviceEntry) : Except String DeviceEntry := do
  requireActive entry
  return { entry with summary := { entry.summary with status := .revoked now } }

def wipeEntry (now : String) (entry : DeviceEntry) : Except String DeviceEntry := do
  Except.require (entry.summary.status.isWiped = false)
    ("device " ++ entry.summary.deviceId ++ " is already wiped")
  return { entry with
    summary := { entry.summary with status := .wiped now }
    sealedSecrets := none }

def revokeDevice (deviceId : String) (registry : DeviceRegistry) : Except String DeviceRegistry :=
  updateDevice deviceId (revokeEntry (fresh.times 0)) registry

def wipeDevice (deviceId : String) (registry : DeviceRegistry) : Except String DeviceRegistry :=
  updateDevice deviceId (wipeEntry (fresh.times 0)) registry

def reseal (current next : Bytes 32) (nonce : Bytes 12) (blob : SealedBlob) :
    Except String SealedBlob := do
  sealBlob packages next nonce (← unsealBlob packages current blob)

def resealDevices (current next : Bytes 32) (nonces : ℕ → Bytes 12) :
    List DeviceEntry → Except String (List DeviceEntry)
  | [] => .ok []
  | entry :: rest => do
      let blob ← entry.sealedSecrets.mapM (reseal packages current next (nonces rest.length))
      let rest ← resealDevices current next nonces rest
      return { entry with sealedSecrets := blob } :: rest

def recover (currentRecoveryKey newRecoveryKey : String) (registry : DeviceRegistry) :
    Except String DeviceRegistry := do
  Except.require (trim newRecoveryKey.toList ≠ trim currentRecoveryKey.toList)
    "new recovery key must differ from the current recovery key"
  let salt ← packages.decode registry.salt
  let current ← storageSealKey packages currentRecoveryKey salt
  let next ← storageSealKey packages newRecoveryKey salt
  let root ← registry.sealedRootSecret.mapM (reseal packages current next fresh.rootNonce)
  let devices ← resealDevices packages current next fresh.nonces registry.devices
  save { registry with sealedRootSecret := root, devices := devices }

/-- `rotate_root`; the generation is a `u32` that is added to without a check. -/
def rotateRoot (recoveryKey : String) (registry : DeviceRegistry) :
    Except String DeviceRegistry := do
  let key ← registryKey packages recoveryKey registry
  verifyRecoveryPossession packages key registry
  Except.require (registry.sealedRootSecret.isSome = true)
    "root rotation must run on the store that holds account root material"
  let generation := (registry.rootGeneration + 1) % 2 ^ 32
  let sealedRootSecret ← sealBlob packages key fresh.rootNonce fresh.rootSecret.val
  save { registry with
    rootGeneration := generation
    rootSigningPublic := rootSigningPublic packages fresh.rootSecret generation
    sealedRootSecret := some sealedRootSecret }

def exportDevice (registry : DeviceRegistry) (deviceId : String) : Except String DeviceExport :=
  match registry.devices.find? fun entry ↦ decide (entry.summary.deviceId = deviceId) with
  | none => .error ("unknown device " ++ deviceId)
  | some entry =>
      match entry.sealedSecrets with
      | none => .error ("device " ++ deviceId ++ " has no retained credential")
      | some credential => .ok {
          contractVersion := registry.contractVersion
          keyHierarchyVersion := registry.keyHierarchyVersion
          accountId := registry.accountId
          rootGeneration := registry.rootGeneration
          rootSigningPublic := registry.rootSigningPublic
          salt := registry.salt
          deviceId := deviceId
          devices := registry.devices.map DeviceEntry.summary
          credential := credential }

/-- `adopt` on a store without an identity. -/
def adopt (exported : DeviceExport) (recoveryKey : String) : Except String DeviceRegistry := do
  Except.require (exported.contractVersion = contractVersion)
    ("device export contract " ++ exported.contractVersion ++ " is not supported")
  Except.require (exported.keyHierarchyVersion = keyHierarchyVersion)
    ("device export hierarchy " ++ exported.keyHierarchyVersion ++ " is not supported")
  let accountSalt ← (packages.decode exported.salt).mapError
    fun _ ↦ "device export salt is not valid base64"
  let accountKey ← storageSealKey packages recoveryKey accountSalt
  let secrets ← (unsealDeviceSecrets packages accountKey exported.credential).mapError
    fun _ ↦ "recovery key does not open this device credential"
  let localKey ← storageSealKey packages recoveryKey fresh.salt.val
  let sealedSecrets ← sealDeviceSecrets packages localKey (fresh.nonces 0) secrets
  let (devices, ()) ← Registry.updateFirst
    (fun entry ↦ decide (entry.summary.deviceId = exported.deviceId))
    "export is missing the credential device"
    (fun entry ↦ .ok ({ entry with sealedSecrets := some sealedSecrets }, ()))
    (exported.devices.map fun summary ↦ ⟨summary, none, []⟩)
  save {
    contractVersion := exported.contractVersion
    keyHierarchyVersion := exported.keyHierarchyVersion
    accountId := exported.accountId
    createdAt := fresh.times 0
    rootGeneration := exported.rootGeneration
    salt := packages.encode fresh.salt.val
    rootSigningPublic := exported.rootSigningPublic
    sealedRootSecret := none
    devices := devices }

/-! ## Stores and export files -/

inductive IdentityOperation where
  | enroll (recoveryKey deviceName : String)
  | rotateDevice (recoveryKey deviceId : String)
  | revokeDevice (deviceId : String)
  | wipeDevice (deviceId : String)
  | recover (currentRecoveryKey newRecoveryKey : String)
  | rotateRoot (recoveryKey : String)

def IdentityOperation.apply : IdentityOperation → DeviceRegistry → Except String DeviceRegistry
  | enroll recoveryKey deviceName => Identity.enroll packages fresh recoveryKey deviceName
  | rotateDevice recoveryKey deviceId => Identity.rotateDevice packages fresh recoveryKey deviceId
  | revokeDevice deviceId => Identity.revokeDevice fresh deviceId
  | wipeDevice deviceId => Identity.wipeDevice fresh deviceId
  | recover currentRecoveryKey newRecoveryKey =>
      Identity.recover packages fresh currentRecoveryKey newRecoveryKey
  | rotateRoot recoveryKey => Identity.rotateRoot packages fresh recoveryKey

/-- The registry of each store, and all export files that were written. -/
structure Household where
  stores : ℕ → Option DeviceRegistry
  exports : List DeviceExport

inductive IdentityEvent where
  | initializeIdentity (n : ℕ) (fresh : Fresh) (deviceName : String)
  | change (n : ℕ) (fresh : Fresh) (op : IdentityOperation)
  | exportTo (n : ℕ) (deviceId : String)
  | adopt (n : ℕ) (fresh : Fresh) (file : ℕ) (recoveryKey : String)

namespace Household

def start : Household := ⟨fun _ ↦ none, []⟩

def set (w : Household) (n : ℕ) (registry : DeviceRegistry) : Household :=
  { w with stores := Function.update w.stores n (some registry) }

/-- One call.  A call that fails, or that needs another kind of store, changes
nothing. -/
def next (w : Household) : IdentityEvent → Household
  | .initializeIdentity n fresh deviceName =>
      if (w.stores n).isSome then w
      else (initializeIdentity packages fresh deviceName).toOption.elim w (w.set n)
  | .change n fresh op =>
      (w.stores n).elim w fun registry ↦
        (op.apply packages fresh registry).toOption.elim w (w.set n)
  | .exportTo n deviceId =>
      (w.stores n).elim w fun registry ↦ (exportDevice registry deviceId).toOption.elim w
        fun exported ↦ { w with exports := w.exports ++ [exported] }
  | .adopt n fresh file recoveryKey =>
      if (w.stores n).isSome then w
      else (w.exports[file]?).elim w fun exported ↦
        (Identity.adopt packages fresh exported recoveryKey).toOption.elim w (w.set n)

abbrev Run : Household → Household → Prop :=
  Transition.Run (fun w event w' ↦ w.next packages event = w') fun _ _ ↦ True

end Household

/-! ## Custody -/

section Custody

variable {packages} {fresh} {key other : Bytes 32} {registry registry' : DeviceRegistry}
  {entry entry' : DeviceEntry}

/-- A device shows the public keys of its secrets. -/
structure Shows (packages : Packages) (summary : DeviceSummary) (secrets : DeviceSecrets) :
    Prop where
  signing : summary.signingPublic = packages.encode (packages.signingPublic secrets.signing)
  agreement : summary.agreementPublic =
    packages.encode (packages.agreementPublic secrets.agreement)
  fingerprint : summary.fingerprint =
    Identity.fingerprint packages (packages.signingPublic secrets.signing)
  retained : summary.status.isWiped = false

/-- What is retained of a device was sealed under the key, and is what the device
shows. -/
structure Held (packages : Packages) (key : Bytes 32) (entry : DeviceEntry) : Prop where
  secrets : ∀ blob ∈ entry.sealedSecrets, ∃ nonce secrets,
    sealDeviceSecrets packages key nonce secrets = .ok blob ∧
      Shows packages entry.summary secrets
  history : entry.retiredPublicKeys.length ≤ retiredKeyHistoryLimit

/-- All that is retained in a registry is held under one key. -/
structure Custody (packages : Packages) (key : Bytes 32) (registry : DeviceRegistry) : Prop where
  root : ∀ blob ∈ registry.sealedRootSecret, ∃ nonce, ∃ secret : Bytes 32,
    sealBlob packages key nonce secret.val = .ok blob ∧
      registry.rootSigningPublic = rootSigningPublic packages secret registry.rootGeneration
  devices : ∀ entry ∈ registry.devices, Held packages key entry

/-- A credential that was exported shows the device it is for. -/
def Exported (packages : Packages) (exported : DeviceExport) : Prop :=
  ∃ key nonce secrets, sealDeviceSecrets packages key nonce secrets = .ok exported.credential ∧
    ∀ summary, exported.devices.find? (fun s ↦ decide (s.deviceId = exported.deviceId)) =
      some summary → Shows packages summary secrets

/-- What later becomes of a device. -/
structure Ages (entry entry' : DeviceEntry) : Prop where
  deviceId : entry'.summary.deviceId = entry.summary.deviceId
  version : entry.summary.keyVersion ≤ entry'.summary.keyVersion
  keys : entry'.summary.keyVersion = entry.summary.keyVersion →
    entry'.summary.signingPublic = entry.summary.signingPublic ∧
      entry'.summary.agreementPublic = entry.summary.agreementPublic
  inactive : entry.summary.status ≠ .active → entry'.summary.status ≠ .active ∧
    entry'.summary.signingPublic = entry.summary.signingPublic
  destroyed : entry.sealedSecrets = none → entry.summary.status ≠ .active →
    entry'.sealedSecrets = none

theorem Ages.refl (entry : DeviceEntry) : Ages entry entry :=
  ⟨rfl, Nat.le_refl _, fun _ ↦ ⟨rfl, rfl⟩, fun h ↦ ⟨h, rfl⟩, fun h _ ↦ h⟩

theorem Ages.trans {a b c : DeviceEntry} (hab : Ages a b) (hbc : Ages b c) : Ages a c where
  deviceId := hbc.deviceId.trans hab.deviceId
  version := Nat.le_trans hab.version hbc.version
  keys h := by
    have hb : b.summary.keyVersion = a.summary.keyVersion :=
      Nat.le_antisymm (h ▸ hbc.version) hab.version
    obtain ⟨hsigning, hagreement⟩ := hab.keys hb
    obtain ⟨hsigning', hagreement'⟩ := hbc.keys (h.trans hb.symm)
    exact ⟨hsigning'.trans hsigning, hagreement'.trans hagreement⟩
  inactive h := by
    obtain ⟨hb, hsigning⟩ := hab.inactive h
    obtain ⟨hc, hsigning'⟩ := hbc.inactive hb
    exact ⟨hc, hsigning'.trans hsigning⟩
  destroyed hnone h := hbc.destroyed (hab.destroyed hnone h) (hab.inactive h).1

/-- What later becomes of a registry. -/
structure Continues (registry registry' : DeviceRegistry) : Prop where
  accountId : registry'.accountId = registry.accountId
  salt : registry'.salt = registry.salt
  root : registry'.sealedRootSecret.isSome = registry.sealedRootSecret.isSome
  devices : Registry.Grows Ages registry.devices registry'.devices

theorem Continues.refl (registry : DeviceRegistry) : Continues registry registry :=
  ⟨rfl, rfl, rfl, .refl Ages.refl _⟩

theorem Continues.trans {a b c : DeviceRegistry} (hab : Continues a b) (hbc : Continues b c) :
    Continues a c where
  accountId := hbc.accountId.trans hab.accountId
  salt := hbc.salt.trans hab.salt
  root := hbc.root.trans hab.root
  devices := hab.devices.trans (fun _ _ _ ↦ .trans) hbc.devices

theorem save_eq_ok (h : save registry = .ok registry') : registry' = registry := by
  rw [save] at h
  obtain ⟨_, -, h⟩ := Iff.mp Except.bind_ok_iff h
  obtain ⟨_, -, h⟩ := Iff.mp Except.bind_ok_iff h
  exact (Iff.mp Except.pure_ok_iff h).symm

theorem seal_eq_ok {nonce : Bytes 12} {plaintext : List UInt8} {blob : SealedBlob}
    (h : sealBlob packages key nonce plaintext = .ok blob) :
    ∃ ciphertext, packages.encrypt key nonce plaintext = some ciphertext ∧
      blob = ⟨packages.encode nonce.val, packages.encode ciphertext⟩ := by
  rw [sealBlob] at h
  split at h
  · rename_i ciphertext hciphertext
    exact ⟨ciphertext, hciphertext, (Except.ok.inj h).symm⟩
  · cases h

/-- The text of a blob is read back before it is opened. -/
theorem unseal_eq (hsound : packages.Sound) (nonce : Bytes 12) (ciphertext : List UInt8) :
    unsealBlob packages key ⟨packages.encode nonce.val, packages.encode ciphertext⟩ =
      (packages.decrypt key nonce ciphertext).elim
        (.error "sealed identity material failed to open") .ok := by
  rw [unsealBlob, hsound.decodes, hsound.decodes]
  change (if h : nonce.val.length = 12 then _ else _) = _
  rw [dif_pos nonce.property]
  cases packages.decrypt key nonce ciphertext with
  | none => rfl
  | some material => rfl

theorem unseal_seal (hsound : packages.Sound) {nonce : Bytes 12} {plaintext : List UInt8}
    {blob : SealedBlob} (h : sealBlob packages key nonce plaintext = .ok blob) :
    unsealBlob packages key blob = .ok plaintext := by
  obtain ⟨ciphertext, hciphertext, rfl⟩ := seal_eq_ok h
  rw [unseal_eq hsound, hsound.opens _ _ _ _ hciphertext, Option.elim_some]

/-- Only the key that sealed a blob opens it. -/
theorem eq_of_unseal (hsound : packages.Sound) {nonce : Bytes 12} {plaintext opened : List UInt8}
    {blob : SealedBlob} (h : sealBlob packages key nonce plaintext = .ok blob)
    (hopened : unsealBlob packages other blob = .ok opened) : other = key ∧ opened = plaintext := by
  have hkey : other = key := by
    obtain ⟨ciphertext, hciphertext, rfl⟩ := seal_eq_ok h
    rw [unseal_eq hsound] at hopened
    cases hmaterial : packages.decrypt other nonce ciphertext with
    | none =>
        rw [hmaterial] at hopened
        cases hopened
    | some material => exact hsound.only _ _ _ _ _ _ hciphertext hmaterial
  rw [hkey, unseal_seal hsound h] at hopened
  exact ⟨hkey, (Except.ok.inj hopened).symm⟩

theorem unsealDeviceSecrets_seal (hsound : packages.Sound) {nonce : Bytes 12}
    {secrets : DeviceSecrets} {blob : SealedBlob}
    (h : sealDeviceSecrets packages key nonce secrets = .ok blob) :
    unsealDeviceSecrets packages key blob = .ok secrets := by
  obtain ⟨⟨signing, hsigning⟩, ⟨agreement, hagreement⟩⟩ := secrets
  have hlength : (signing ++ agreement).length = deviceSecretBytes := by
    rw [List.length_append, hsigning, hagreement]
    rfl
  rw [unsealDeviceSecrets, unseal_seal hsound h]
  change (if h : (signing ++ agreement).length = deviceSecretBytes then _ else _) = _
  rw [dif_pos hlength]
  refine congrArg Except.ok ?_
  congr 1
  · exact Subtype.ext (List.take_left' hsigning)
  · exact Subtype.ext (List.drop_left' hsigning)

theorem eq_of_unsealDeviceSecrets (hsound : packages.Sound) {nonce : Bytes 12}
    {secrets opened : DeviceSecrets} {blob : SealedBlob}
    (h : sealDeviceSecrets packages key nonce secrets = .ok blob)
    (hopened : unsealDeviceSecrets packages other blob = .ok opened) :
    other = key ∧ opened = secrets := by
  have hkey : other = key := by
    rw [unsealDeviceSecrets] at hopened
    obtain ⟨material, hmaterial, -⟩ := Iff.mp Except.bind_ok_iff hopened
    exact (eq_of_unseal hsound h hmaterial).1
  rw [hkey, unsealDeviceSecrets_seal hsound h] at hopened
  exact ⟨hkey, (Except.ok.inj hopened).symm⟩

/-- A recovery key that opens the root material is the one that all is held under. -/
theorem Custody.eq_of_verify (h : Custody packages key registry) (hsound : packages.Sound)
    (hverify : verifyRecoveryPossession packages other registry = .ok ()) : other = key := by
  rw [verifyRecoveryPossession] at hverify
  split at hverify
  · cases hverify
  · rename_i blob hblob
    obtain ⟨nonce, secret, hsealed, -⟩ := h.root blob hblob
    split at hverify
    · rename_i opened hopened
      exact (eq_of_unseal hsound hsealed hopened).1
    · cases hverify

theorem held_newEntry {deviceName : String}
    (h : newEntry packages fresh key deviceName = .ok entry) : Held packages key entry := by
  rw [newEntry] at h
  obtain ⟨sealedSecrets, hsealed, h⟩ := Iff.mp Except.bind_ok_iff h
  obtain rfl := Iff.mp Except.pure_ok_iff h
  refine ⟨fun blob hblob ↦ ⟨fresh.nonces 0, fresh.secrets, ?_, rfl, rfl, rfl, rfl⟩, ?_⟩
  · rw [← Option.some.inj hblob]
    exact hsealed
  · exact Nat.zero_le _

theorem length_retire {keys : List RetiredPublicKey} (h : keys.length ≤ retiredKeyHistoryLimit)
    (retired : RetiredPublicKey) : (retire keys retired).length ≤ retiredKeyHistoryLimit := by
  rw [retire]
  split
  · rw [List.length_tail, List.length_append]
    simpa using h
  · omega

theorem updateDevice_eq_ok {deviceId : String} {change : DeviceEntry → Except String DeviceEntry}
    (h : updateDevice deviceId change registry = .ok registry') :
    ∃ pre entry post entry', registry.devices = pre ++ entry :: post ∧
      change entry = .ok entry' ∧
      registry' = { registry with devices := pre ++ entry' :: post } := by
  rw [updateDevice] at h
  obtain ⟨⟨devices, _⟩, hdevices, h⟩ := Iff.mp Except.bind_ok_iff h
  obtain ⟨pre, entry, post, entry', hsplit, -, -, hchange, rfl⟩ :=
    Iff.mp Registry.updateFirst_eq_ok hdevices
  obtain ⟨changed, hchanged, heq⟩ := Iff.mp Except.map_ok_iff hchange
  obtain ⟨rfl, -⟩ := Prod.mk.inj heq
  exact ⟨pre, entry, post, changed, hsplit, hchanged, save_eq_ok h⟩

theorem held_replaced {pre post : List DeviceEntry}
    (h : ∀ e ∈ pre ++ entry :: post, Held packages key e) (hnew : Held packages key entry') :
    ∀ e ∈ pre ++ entry' :: post, Held packages key e := by
  intro e he
  rcases List.mem_append.mp he with he | he
  · exact h e (List.mem_append_left _ he)
  · rcases List.mem_cons.mp he with rfl | he
    · exact hnew
    · exact h e (List.mem_append_right _ (List.mem_cons_of_mem _ he))

theorem Custody.change (h : Custody packages key registry) {deviceId : String}
    {change : DeviceEntry → Except String DeviceEntry}
    (hchange : ∀ entry entry', Held packages key entry → change entry = .ok entry' →
      Held packages key entry' ∧ Ages entry entry')
    (hupdate : updateDevice deviceId change registry = .ok registry') :
    Custody packages key registry' ∧ Continues registry registry' := by
  obtain ⟨pre, entry, post, entry', hsplit, hentry, rfl⟩ := updateDevice_eq_ok hupdate
  have hheld : ∀ e ∈ pre ++ entry :: post, Held packages key e := hsplit ▸ h.devices
  obtain ⟨hnew, hages⟩ := hchange entry entry' (hheld entry (by simp)) hentry
  refine ⟨⟨h.root, held_replaced hheld hnew⟩, rfl, rfl, rfl, ?_⟩
  rw [hsplit]
  exact .of_split Ages.refl hages

theorem active_of_requireActive (h : requireActive entry = .ok ()) :
    entry.summary.status = .active := by
  rw [requireActive] at h
  split at h
  · assumption
  · cases h
  · cases h

theorem held_rotateEntry (h : Held packages key entry)
    (hrotate : rotateEntry packages fresh key entry = .ok entry') :
    Held packages key entry' ∧ Ages entry entry' := by
  rw [rotateEntry] at hrotate
  obtain ⟨_, hrequire, hrotate⟩ := Iff.mp Except.bind_ok_iff hrotate
  obtain ⟨sealedSecrets, hsealed, hrotate⟩ := Iff.mp Except.bind_ok_iff hrotate
  obtain ⟨_, -, hrotate⟩ := Iff.mp Except.bind_ok_iff hrotate
  obtain rfl := Iff.mp Except.pure_ok_iff hrotate
  have hactive := active_of_requireActive hrequire
  refine ⟨⟨fun blob hblob ↦ ?_, length_retire h.history _⟩, rfl, Nat.le_succ _, fun heq ↦ ?_,
    fun hne ↦ absurd hactive hne, fun _ hne ↦ absurd hactive hne⟩
  · refine ⟨fresh.nonces 0, fresh.secrets, ?_, rfl, rfl, rfl, ?_⟩
    · rw [← Option.some.inj hblob]
      exact hsealed
    · change entry.summary.status.isWiped = false
      rw [hactive]
      rfl
  · exact absurd heq (Nat.succ_ne_self _)

theorem held_revokeEntry {now : String} (h : Held packages key entry)
    (hrevoke : revokeEntry now entry = .ok entry') :
    Held packages key entry' ∧ Ages entry entry' := by
  rw [revokeEntry] at hrevoke
  obtain ⟨_, -, hrevoke⟩ := Iff.mp Except.bind_ok_iff hrevoke
  obtain rfl := Iff.mp Except.pure_ok_iff hrevoke
  refine ⟨⟨fun blob hblob ↦ ?_, h.history⟩, rfl, Nat.le_refl _, fun _ ↦ ⟨rfl, rfl⟩, fun _ ↦ ?_,
    fun hnone _ ↦ hnone⟩
  · obtain ⟨nonce, secrets, hsealed, hshows⟩ := h.secrets blob hblob
    exact ⟨nonce, secrets, hsealed, hshows.signing, hshows.agreement, hshows.fingerprint, rfl⟩
  · exact ⟨by simp, rfl⟩

theorem held_wipeEntry {now : String} (h : Held packages key entry)
    (hwipe : wipeEntry now entry = .ok entry') :
    Held packages key entry' ∧ Ages entry entry' := by
  rw [wipeEntry] at hwipe
  obtain ⟨_, -, hwipe⟩ := Iff.mp Except.bind_ok_iff hwipe
  obtain rfl := Iff.mp Except.pure_ok_iff hwipe
  refine ⟨⟨fun blob hblob ↦ by simp at hblob, h.history⟩, rfl, Nat.le_refl _,
    fun _ ↦ ⟨rfl, rfl⟩, fun _ ↦ ?_, fun _ _ ↦ rfl⟩
  exact ⟨by simp, rfl⟩

theorem custody_enroll (h : Custody packages key registry) (hsound : packages.Sound)
    {recoveryKey deviceName : String}
    (henroll : enroll packages fresh recoveryKey deviceName registry = .ok registry') :
    Custody packages key registry' ∧ Continues registry registry' := by
  rw [enroll] at henroll
  obtain ⟨_, -, henroll⟩ := Iff.mp Except.bind_ok_iff henroll
  obtain ⟨_, -, henroll⟩ := Iff.mp Except.bind_ok_iff henroll
  obtain ⟨other, -, henroll⟩ := Iff.mp Except.bind_ok_iff henroll
  obtain ⟨_, hverify, henroll⟩ := Iff.mp Except.bind_ok_iff henroll
  obtain ⟨entry, hentry, henroll⟩ := Iff.mp Except.bind_ok_iff henroll
  obtain rfl := h.eq_of_verify hsound hverify
  obtain rfl := save_eq_ok henroll
  refine ⟨⟨h.root, fun e he ↦ ?_⟩, rfl, rfl, rfl, .append Ages.refl _ _⟩
  rcases List.mem_append.mp he with he | he
  · exact h.devices e he
  · rw [List.mem_singleton.mp he]
    exact held_newEntry hentry

theorem custody_rotateDevice (h : Custody packages key registry) (hsound : packages.Sound)
    {recoveryKey deviceId : String}
    (hrotate : rotateDevice packages fresh recoveryKey deviceId registry = .ok registry') :
    Custody packages key registry' ∧ Continues registry registry' := by
  rw [rotateDevice] at hrotate
  obtain ⟨other, -, hrotate⟩ := Iff.mp Except.bind_ok_iff hrotate
  obtain ⟨_, hverify, hrotate⟩ := Iff.mp Except.bind_ok_iff hrotate
  obtain rfl := h.eq_of_verify hsound hverify
  exact h.change (fun _ _ ↦ held_rotateEntry) hrotate

theorem custody_rotateRoot (h : Custody packages key registry) (hsound : packages.Sound)
    {recoveryKey : String}
    (hrotate : rotateRoot packages fresh recoveryKey registry = .ok registry') :
    Custody packages key registry' ∧ Continues registry registry' := by
  rw [rotateRoot] at hrotate
  obtain ⟨other, -, hrotate⟩ := Iff.mp Except.bind_ok_iff hrotate
  obtain ⟨_, hverify, hrotate⟩ := Iff.mp Except.bind_ok_iff hrotate
  obtain ⟨_, hroot, hrotate⟩ := Iff.mp Except.bind_ok_iff hrotate
  obtain ⟨sealedRootSecret, hsealed, hrotate⟩ := Iff.mp Except.bind_ok_iff hrotate
  obtain rfl := h.eq_of_verify hsound hverify
  obtain rfl := save_eq_ok hrotate
  refine ⟨⟨fun blob hblob ↦ ⟨fresh.rootNonce, fresh.rootSecret, ?_, rfl⟩, h.devices⟩, rfl, rfl,
    (Iff.mp Except.require_ok_iff hroot).symm, .refl Ages.refl _⟩
  rw [← Option.some.inj hblob]
  exact hsealed

theorem reseal_eq_ok (hsound : packages.Sound) {current next : Bytes 32} {nonce nonce' : Bytes 12}
    {material : List UInt8} {before blob : SealedBlob}
    (hbefore : sealBlob packages key nonce' material = .ok before)
    (h : reseal packages current next nonce before = .ok blob) :
    sealBlob packages next nonce material = .ok blob := by
  rw [reseal] at h
  obtain ⟨opened, hopened, h⟩ := Iff.mp Except.bind_ok_iff h
  obtain ⟨-, rfl⟩ := eq_of_unseal hsound hbefore hopened
  exact h

theorem mapM_reseal_eq_ok {current next : Bytes 32} {nonce : Bytes 12}
    {old new : Option SealedBlob}
    (h : old.mapM (reseal packages current next nonce) = .ok new) :
    new.isSome = old.isSome ∧ ∀ blob ∈ new, ∃ before ∈ old,
      reseal packages current next nonce before = .ok blob := by
  cases old with
  | none =>
      obtain rfl := Iff.mp Except.pure_ok_iff h
      exact ⟨rfl, by simp⟩
  | some before =>
      rw [Option.mapM_some] at h
      obtain ⟨blob, hblob, rfl⟩ := Iff.mp Except.map_ok_iff h
      refine ⟨rfl, fun b hb ↦ ⟨before, rfl, ?_⟩⟩
      rw [← Option.some.inj hb]
      exact hblob

theorem held_resealDevices (hsound : packages.Sound) {current next : Bytes 32}
    {nonces : ℕ → Bytes 12} {entries entries' : List DeviceEntry}
    (h : ∀ e ∈ entries, Held packages key e)
    (hreseal : resealDevices packages current next nonces entries = .ok entries') :
    (∀ e ∈ entries', Held packages next e) ∧ List.Forall₂ Ages entries entries' := by
  induction entries generalizing entries' with
  | nil =>
      obtain rfl := Except.ok.inj hreseal
      exact ⟨by simp, .nil⟩
  | cons entry rest ih =>
      rw [resealDevices] at hreseal
      obtain ⟨blob, hblob, hreseal⟩ := Iff.mp Except.bind_ok_iff hreseal
      obtain ⟨rest', hrest, hreseal⟩ := Iff.mp Except.bind_ok_iff hreseal
      obtain rfl := Iff.mp Except.pure_ok_iff hreseal
      obtain ⟨hsome, hblobs⟩ := mapM_reseal_eq_ok hblob
      obtain ⟨hheld, hages⟩ := ih (fun e he ↦ h e (List.mem_cons_of_mem _ he)) hrest
      have hentry := h entry List.mem_cons_self
      refine ⟨List.forall_mem_cons.mpr ⟨⟨fun b hb ↦ ?_, hentry.history⟩, hheld⟩, .cons ?_ hages⟩
      · obtain ⟨before, hbefore, hresealed⟩ := hblobs b hb
        obtain ⟨nonce, secrets, hsealed, hshows⟩ := hentry.secrets before hbefore
        exact ⟨nonces rest.length, secrets, reseal_eq_ok hsound hsealed hresealed, hshows⟩
      · refine ⟨rfl, Nat.le_refl _, fun _ ↦ ⟨rfl, rfl⟩, fun hne ↦ ⟨hne, rfl⟩, fun hnone _ ↦ ?_⟩
        rw [hnone] at hsome
        exact Option.isNone_iff_eq_none.mp (Option.isSome_eq_false_iff.mp hsome)

theorem custody_recover (h : Custody packages key registry) (hsound : packages.Sound)
    {currentRecoveryKey newRecoveryKey : String}
    (hrecover : recover packages fresh currentRecoveryKey newRecoveryKey registry =
      .ok registry') :
    (∃ next, Custody packages next registry') ∧ Continues registry registry' := by
  rw [recover] at hrecover
  obtain ⟨_, -, hrecover⟩ := Iff.mp Except.bind_ok_iff hrecover
  obtain ⟨salt, -, hrecover⟩ := Iff.mp Except.bind_ok_iff hrecover
  obtain ⟨current, -, hrecover⟩ := Iff.mp Except.bind_ok_iff hrecover
  obtain ⟨next, -, hrecover⟩ := Iff.mp Except.bind_ok_iff hrecover
  obtain ⟨root, hroot, hrecover⟩ := Iff.mp Except.bind_ok_iff hrecover
  obtain ⟨devices, hdevices, hrecover⟩ := Iff.mp Except.bind_ok_iff hrecover
  obtain rfl := save_eq_ok hrecover
  obtain ⟨hsome, hroots⟩ := mapM_reseal_eq_ok hroot
  obtain ⟨hheld, hages⟩ := held_resealDevices hsound h.devices hdevices
  refine ⟨⟨next, fun blob hblob ↦ ?_, hheld⟩, rfl, rfl, hsome, .of_forall₂ hages⟩
  obtain ⟨before, hbefore, hresealed⟩ := hroots blob hblob
  obtain ⟨nonce, secret, hsealed, hpublic⟩ := h.root before hbefore
  exact ⟨fresh.rootNonce, secret, reseal_eq_ok hsound hsealed hresealed, hpublic⟩

/-- Every call on a store keeps the custody, if under another key. -/
theorem custody_apply (h : Custody packages key registry) (hsound : packages.Sound)
    {op : IdentityOperation} (hop : op.apply packages fresh registry = .ok registry') :
    (∃ next, Custody packages next registry') ∧ Continues registry registry' := by
  cases op with
  | enroll recoveryKey deviceName =>
      obtain ⟨hcustody, hcontinues⟩ := custody_enroll h hsound hop
      exact ⟨⟨key, hcustody⟩, hcontinues⟩
  | rotateDevice recoveryKey deviceId =>
      obtain ⟨hcustody, hcontinues⟩ := custody_rotateDevice h hsound hop
      exact ⟨⟨key, hcustody⟩, hcontinues⟩
  | revokeDevice deviceId =>
      obtain ⟨hcustody, hcontinues⟩ := h.change (fun _ _ ↦ held_revokeEntry) hop
      exact ⟨⟨key, hcustody⟩, hcontinues⟩
  | wipeDevice deviceId =>
      obtain ⟨hcustody, hcontinues⟩ := h.change (fun _ _ ↦ held_wipeEntry) hop
      exact ⟨⟨key, hcustody⟩, hcontinues⟩
  | recover currentRecoveryKey newRecoveryKey => exact custody_recover h hsound hop
  | rotateRoot recoveryKey =>
      obtain ⟨hcustody, hcontinues⟩ := custody_rotateRoot h hsound hop
      exact ⟨⟨key, hcustody⟩, hcontinues⟩

theorem custody_created {deviceName : String}
    (h : initializeIdentity packages fresh deviceName = .ok registry) :
    ∃ key, Custody packages key registry := by
  rw [initializeIdentity] at h
  obtain ⟨_, -, h⟩ := Iff.mp Except.bind_ok_iff h
  obtain ⟨key, -, h⟩ := Iff.mp Except.bind_ok_iff h
  obtain ⟨sealedRootSecret, hsealed, h⟩ := Iff.mp Except.bind_ok_iff h
  obtain ⟨entry, hentry, h⟩ := Iff.mp Except.bind_ok_iff h
  obtain rfl := save_eq_ok h
  refine ⟨key, fun blob hblob ↦ ⟨fresh.rootNonce, fresh.rootSecret, ?_, rfl⟩, fun e he ↦ ?_⟩
  · rw [← Option.some.inj hblob]
    exact hsealed
  · rw [List.mem_singleton.mp he]
    exact held_newEntry hentry

/-- The credential of an export is the one of the device it names. -/
theorem exported_of_export (h : Custody packages key registry) {deviceId : String}
    {exported : DeviceExport} (hexport : exportDevice registry deviceId = .ok exported) :
    Exported packages exported := by
  rw [exportDevice] at hexport
  split at hexport
  · cases hexport
  · rename_i entry hfind
    split at hexport
    · cases hexport
    · rename_i credential hcredential
      obtain rfl := Except.ok.inj hexport
      obtain ⟨nonce, secrets, hsealed, hshows⟩ :=
        (h.devices entry (List.mem_of_find?_eq_some hfind)).secrets credential hcredential
      refine ⟨key, nonce, secrets, hsealed, fun summary hsummary ↦ ?_⟩
      dsimp only at hsummary
      rw [List.find?_map] at hsummary
      change Option.map _ (registry.devices.find? fun entry ↦
        decide (entry.summary.deviceId = deviceId)) = some summary at hsummary
      rw [hfind] at hsummary
      rw [← Option.some.inj hsummary]
      exact hshows

/-- An adopted credential is held under the key of the store's own salt. -/
theorem custody_adopt (hsound : packages.Sound) {exported : DeviceExport} {recoveryKey : String}
    (hexported : Exported packages exported)
    (h : adopt packages fresh exported recoveryKey = .ok registry) :
    ∃ key, Custody packages key registry := by
  obtain ⟨key, nonce, secrets, hcredential, hshows⟩ := hexported
  rw [adopt] at h
  obtain ⟨_, -, h⟩ := Iff.mp Except.bind_ok_iff h
  obtain ⟨_, -, h⟩ := Iff.mp Except.bind_ok_iff h
  obtain ⟨accountSalt, -, h⟩ := Iff.mp Except.bind_ok_iff h
  obtain ⟨accountKey, -, h⟩ := Iff.mp Except.bind_ok_iff h
  obtain ⟨opened, hopened, h⟩ := Iff.mp Except.bind_ok_iff h
  obtain ⟨localKey, -, h⟩ := Iff.mp Except.bind_ok_iff h
  obtain ⟨sealedSecrets, hsealed, h⟩ := Iff.mp Except.bind_ok_iff h
  obtain ⟨⟨devices, _⟩, hdevices, h⟩ := Iff.mp Except.bind_ok_iff h
  obtain rfl := save_eq_ok h
  have hsame : opened = secrets := by
    cases hunseal : unsealDeviceSecrets packages accountKey exported.credential with
    | error e =>
        rw [hunseal] at hopened
        cases hopened
    | ok found =>
        rw [hunseal] at hopened
        rw [← Except.ok.inj hopened]
        exact (eq_of_unsealDeviceSecrets hsound hcredential hunseal).2
  rw [hsame] at hsealed
  obtain ⟨pre, entry, post, entry', hsplit, hpre, hentry, hchange, rfl⟩ :=
    Iff.mp Registry.updateFirst_eq_ok hdevices
  obtain ⟨rfl, -⟩ := Prod.mk.inj (Except.ok.inj hchange)
  -- The other devices come without secrets.
  have hplain : ∀ e ∈ pre ++ entry :: post, Held packages localKey e := by
    intro e he
    rw [← hsplit] at he
    obtain ⟨summary, -, rfl⟩ := List.mem_map.mp he
    exact ⟨fun blob hblob ↦ by simp at hblob, Nat.zero_le _⟩
  have hown : Shows packages entry.summary secrets := by
    have hfind : (pre ++ entry :: post).find? _ = some entry :=
      Registry.find?_of_split hpre hentry
    rw [← hsplit, List.find?_map] at hfind
    obtain ⟨summary, hsummary, rfl⟩ := Option.map_eq_some_iff.mp hfind
    exact hshows summary hsummary
  refine ⟨localKey, by simp, held_replaced hplain ?_⟩
  refine ⟨fun blob hblob ↦ ⟨fresh.nonces 0, secrets, ?_, hown⟩, ?_⟩
  · rw [← Option.some.inj hblob]
    exact hsealed
  · exact (hplain entry (by simp)).history

/-! ## Every run -/

/-- All that is retained opens under the key and under no other one, and is what
the registry shows. -/
structure Opens (packages : Packages) (key : Bytes 32) (registry : DeviceRegistry) : Prop where
  root : ∀ blob ∈ registry.sealedRootSecret, ∃ secret : Bytes 32,
    unsealBlob packages key blob = .ok secret.val ∧
      registry.rootSigningPublic = rootSigningPublic packages secret registry.rootGeneration
  devices : ∀ entry ∈ registry.devices, ∀ blob ∈ entry.sealedSecrets, ∃ secrets,
    unsealDeviceSecrets packages key blob = .ok secrets ∧ Shows packages entry.summary secrets
  only : ∀ other opened blob, (blob ∈ registry.sealedRootSecret ∨
    ∃ entry ∈ registry.devices, blob ∈ entry.sealedSecrets) →
      unsealBlob packages other blob = .ok opened → other = key
  history : ∀ entry ∈ registry.devices,
    entry.retiredPublicKeys.length ≤ retiredKeyHistoryLimit

theorem Custody.opens (h : Custody packages key registry) (hsound : packages.Sound) :
    Opens packages key registry where
  root blob hblob := by
    obtain ⟨nonce, secret, hsealed, hpublic⟩ := h.root blob hblob
    exact ⟨secret, unseal_seal hsound hsealed, hpublic⟩
  devices entry hentry blob hblob := by
    obtain ⟨nonce, secrets, hsealed, hshows⟩ := (h.devices entry hentry).secrets blob hblob
    exact ⟨secrets, unsealDeviceSecrets_seal hsound hsealed, hshows⟩
  only other opened blob hblob hopened := by
    rcases hblob with hblob | ⟨entry, hentry, hblob⟩
    · obtain ⟨nonce, secret, hsealed, -⟩ := h.root blob hblob
      exact (eq_of_unseal hsound hsealed hopened).1
    · obtain ⟨nonce, secrets, hsealed, -⟩ := (h.devices entry hentry).secrets blob hblob
      exact (eq_of_unseal hsound hsealed hopened).1
  history entry hentry := (h.devices entry hentry).history

end Custody

namespace Household

variable {packages : Packages} {w w' : Household}

structure Safe (packages : Packages) (w : Household) : Prop where
  stores : ∀ n registry, w.stores n = some registry → ∃ key, Custody packages key registry
  exports : ∀ exported ∈ w.exports, Exported packages exported

/-- Each store goes on from where it was. -/
def Carries (w w' : Household) : Prop :=
  ∀ n registry, w.stores n = some registry →
    ∃ registry', w'.stores n = some registry' ∧ Continues registry registry'

theorem Carries.refl (w : Household) : Carries w w :=
  fun _ registry h ↦ ⟨registry, h, .refl registry⟩

theorem Carries.trans {u v w : Household} (huv : Carries u v) (hvw : Carries v w) :
    Carries u w := by
  intro n registry h
  obtain ⟨mid, hmid, hcontinues⟩ := huv n registry h
  obtain ⟨last, hlast, hcontinues'⟩ := hvw n mid hmid
  exact ⟨last, hlast, hcontinues.trans hcontinues'⟩

theorem stores_set (w : Household) (n m : ℕ) (registry : DeviceRegistry) :
    (w.set n registry).stores m = if m = n then some registry else w.stores m :=
  Function.update_apply ..

theorem Safe.set (h : Safe packages w) {n : ℕ} {registry : DeviceRegistry}
    (hregistry : ∃ key, Custody packages key registry)
    (hold : ∀ old, w.stores n = some old → Continues old registry) :
    Safe packages (w.set n registry) ∧ Carries w (w.set n registry) := by
  refine ⟨⟨fun m r hr ↦ ?_, h.exports⟩, fun m r hr ↦ ?_⟩
  · rw [stores_set] at hr
    split_ifs at hr with hm
    · rw [← Option.some.inj hr]
      exact hregistry
    · exact h.stores m r hr
  · rw [stores_set]
    split_ifs with hm
    · rw [hm] at hr
      exact ⟨registry, rfl, hold r hr⟩
    · exact ⟨r, hr, .refl r⟩

/-- What one call keeps. -/
theorem Safe.next (h : Safe packages w) (hsound : packages.Sound) (event : IdentityEvent) :
    Safe packages (w.next packages event) ∧ Carries w (w.next packages event) := by
  have hsame : Safe packages w ∧ Carries w w := ⟨h, .refl w⟩
  cases event with
  | initializeIdentity n fresh deviceName =>
      rw [Household.next]
      split_ifs with hused
      · exact hsame
      · cases hnew : initializeIdentity packages fresh deviceName with
        | error e => exact hsame
        | ok registry =>
            refine h.set (custody_created hnew) fun old hold ↦ ?_
            simp [hold] at hused
  | change n fresh op =>
      rw [Household.next]
      cases hstore : w.stores n with
      | none => exact hsame
      | some registry =>
          dsimp only [Option.elim_some]
          cases hop : op.apply packages fresh registry with
          | error e => exact hsame
          | ok registry' =>
              obtain ⟨key, hcustody⟩ := h.stores n registry hstore
              obtain ⟨hnext, hcontinues⟩ := custody_apply hcustody hsound hop
              refine h.set hnext fun old hold ↦ ?_
              rw [← Option.some.inj (hstore.symm.trans hold)]
              exact hcontinues
  | exportTo n deviceId =>
      rw [Household.next]
      cases hstore : w.stores n with
      | none => exact hsame
      | some registry =>
          dsimp only [Option.elim_some]
          cases hexport : exportDevice registry deviceId with
          | error e => exact hsame
          | ok exported =>
              obtain ⟨key, hcustody⟩ := h.stores n registry hstore
              refine ⟨⟨h.stores, fun e he ↦ ?_⟩, Carries.refl w⟩
              rcases List.mem_append.mp he with he | he
              · exact h.exports e he
              · rw [List.mem_singleton.mp he]
                exact exported_of_export hcustody hexport
  | adopt n fresh file recoveryKey =>
      rw [Household.next]
      split_ifs with hused
      · exact hsame
      · cases hfile : w.exports[file]? with
        | none => exact hsame
        | some exported =>
            dsimp only [Option.elim_some]
            cases hnew : Identity.adopt packages fresh exported recoveryKey with
            | error e => exact hsame
            | ok registry =>
                have hexported := h.exports exported (List.mem_of_getElem? hfile)
                refine h.set (custody_adopt hsound hexported hnew) fun old hold ↦ ?_
                simp [hold] at hused

theorem safe_start (packages : Packages) : Safe packages start := by
  refine ⟨fun n registry h ↦ ?_, fun exported h ↦ ?_⟩
  · cases h
  · cases h

theorem safe_along (hsound : packages.Sound) (h : Run packages w w') (hw : Safe packages w) :
    Safe packages w' := by
  have hstep : ∀ (w : Household) (event : IdentityEvent) (w' : Household), Safe packages w →
      True → w.next packages event = w' → Safe packages w' := by
    rintro w event w' hw - rfl
    exact (hw.next hsound event).1
  exact Transition.Run.preserves hstep h hw

theorem carries_of_run (hsound : packages.Sound) (h : Run packages w w') (hw : Safe packages w) :
    Carries w w' := by
  refine Transition.Run.relates Carries.refl (fun _ _ _ ↦ .trans) ?_ ?_ h hw
  · rintro w event w' hw - rfl
    exact (hw.next hsound event).1
  · rintro w event w' hw - rfl
    exact (hw.next hsound event).2

/-- In every run of calls on any number of stores, with export files of any age,
there is one key that opens all a store retains, and no other key opens any of
it; what it opens are the secrets of the public keys the store shows.  From then
on the account and the salt stay, key versions only go up, the public keys of a
device change with its version only, and a device that is no longer active never
is again, keeps its public key, and gets no new secrets once they are destroyed. -/
theorem secrets_open (hsound : packages.Sound) (hrun : Run packages start w)
    (hlater : Run packages w w') {n : ℕ} {registry : DeviceRegistry}
    (hregistry : w.stores n = some registry) :
    (∃ key, Opens packages key registry) ∧
      ∃ registry', w'.stores n = some registry' ∧ Continues registry registry' := by
  have hw := safe_along hsound hrun (safe_start packages)
  obtain ⟨key, hcustody⟩ := hw.stores n registry hregistry
  exact ⟨⟨key, hcustody.opens hsound⟩, carries_of_run hsound hlater hw n registry hregistry⟩

/-! ## A device that was adopted -/

/-- A device that was enrolled on one store is exported and adopted on another. -/
theorem exists_pairing (op : IdentityOperation) {fresh fresh' fresh'' : Fresh}
    {deviceName deviceId recoveryKey : String} {first second third : DeviceRegistry} {exported : DeviceExport}
    (hfirst : initializeIdentity packages fresh deviceName = .ok first)
    (hsecond : op.apply packages fresh' first = .ok second)
    (hexported : exportDevice second deviceId = .ok exported)
    (hthird : Identity.adopt packages fresh'' exported recoveryKey = .ok third) :
    ∃ w, Run packages start w ∧ w.stores 1 = some third := by
  have hcreate : start.next packages (.initializeIdentity 0 fresh deviceName) =
      start.set 0 first := by
    simp [Household.next, start, hfirst, Except.toOption]
  have hchange : (start.set 0 first).next packages (.change 0 fresh' op) =
      (start.set 0 first).set 0 second := by
    simp [Household.next, stores_set, hsecond, Except.toOption]
  let paired := (start.set 0 first).set 0 second
  let filed : Household := { paired with exports := [exported] }
  have hexport : paired.next packages (.exportTo 0 deviceId) = filed := by
    simp [Household.next, filed, paired, stores_set, hexported, Except.toOption]
    rfl
  have hadopt : filed.next packages (.adopt 1 fresh'' 0 recoveryKey) = filed.set 1 third := by
    simp [Household.next, filed, paired, stores_set, start, hthird, Except.toOption]
  refine ⟨filed.set 1 third, ?_, (stores_set filed 1 1 third).trans (if_pos rfl)⟩
  have hpaired : Run packages start paired :=
    ((Transition.Run.refl start).snoc trivial hcreate).snoc trivial hchange
  exact (hpaired.snoc trivial hexport).snoc trivial hadopt

/-- Packages that write the key before the material, and bytes as characters. -/
def samplePackages : Packages where
  encode bytes := String.ofList (bytes.map fun b ↦ Char.ofNat b.toNat)
  decode text := .ok (text.toList.map fun c ↦ UInt8.ofNat c.toNat)
  hkdf ikm salt _ :=
    ⟨(ikm.take 16 ++ salt ++ List.replicate 32 0).take 32, by simp; omega⟩
  encrypt key _ material := some (key.val ++ material)
  decrypt key _ ciphertext :=
    if ciphertext.take 32 = key.val then some (ciphertext.drop 32) else none
  signingPublic := Subtype.val
  agreementPublic := Subtype.val
  sha := Sha256.sample

theorem ofNat_toNat_char (b : UInt8) : UInt8.ofNat (Char.ofNat b.toNat).toNat = b :=
  @forall_byte (fun b ↦ UInt8.ofNat (Char.ofNat b.toNat).toNat = b)
    (by decide +kernel) b

theorem samplePackages_sound : samplePackages.Sound where
  decodes bytes := by
    simp [samplePackages, Function.comp_def, ofNat_toNat_char]
  opens key nonce material ciphertext h := by
    obtain rfl := Option.some.inj h
    change (if (key.val ++ material).take 32 = key.val then _ else _) = _
    rw [if_pos (List.take_left' key.property), List.drop_left' key.property]
  only key other nonce material ciphertext opened h hopened := by
    obtain rfl := Option.some.inj h
    change (if (key.val ++ material).take 32 = other.val then _ else _) = _ at hopened
    rw [List.take_left' key.property] at hopened
    split_ifs at hopened with hsame
    exact Subtype.ext hsame.symm

def sampleBytes (n : ℕ) (b : UInt8) : Bytes n := ⟨List.replicate n b, List.length_replicate⟩

def sampleFresh (n : ℕ) : Fresh where
  recoveryBytes := sampleBytes 32 65
  salt := sampleBytes 16 (.ofNat n)
  rootSecret := sampleBytes 32 1
  rootNonce := sampleBytes 12 0
  nonces := fun _ ↦ sampleBytes 12 0
  secrets := ⟨sampleBytes 32 2, sampleBytes 32 3⟩
  deviceId := "d" ++ toString n
  accountId := "a"
  times := fun _ ↦ "2026-01-01T00:00:00+00:00"

def sampleKey : String := String.ofList (List.replicate 32 'A')

/-- A second device is enrolled, exported and adopted. -/
def samplePairing : Except String DeviceRegistry := do
  let first ← initializeIdentity samplePackages (sampleFresh 1) "laptop"
  let second ← enroll samplePackages (sampleFresh 2) sampleKey "phone" first
  let exported ← exportDevice second "d2"
  Identity.adopt samplePackages (sampleFresh 3) exported sampleKey

theorem secrets_open_adopted : ∃ (w : Household) (registry : DeviceRegistry),
    w.stores 1 = some registry ∧ ∃ key, Opens samplePackages key registry := by
  have hpairing : samplePairing.toOption.isSome = true := by decide +kernel
  cases hresult : samplePairing with
  | error e =>
      rw [hresult] at hpairing
      cases hpairing
  | ok third =>
      rw [samplePairing] at hresult
      obtain ⟨first, hfirst, hresult⟩ := Iff.mp Except.bind_ok_iff hresult
      obtain ⟨second, hsecond, hresult⟩ := Iff.mp Except.bind_ok_iff hresult
      obtain ⟨exported, hexported, hthird⟩ := Iff.mp Except.bind_ok_iff hresult
      obtain ⟨w, hrun, hw⟩ := exists_pairing (.enroll sampleKey "phone") hfirst hsecond
        hexported hthird
      have hopen := secrets_open samplePackages_sound hrun (Transition.Run.refl w) hw
      exact ⟨w, third, hw, hopen.1⟩

end Household

end Identity

end Cortana
