import Cortana.Control.Destruction

/-!
# Membership of a team

Who is a member of a workspace, and by which invitation, over all calls.  The
facts about one workspace row come first, then those that tie the rows to the
invitations and to what has happened.
-/

namespace Cortana

open Pathname Transition

/-! ## One workspace -/

namespace WorkspaceRecord

variable {w : WorkspaceRecord} {log log' : List TeamEvent} {memberId : String}

/-- The invitation behind a membership, and the role its inviter held. -/
structure Vouched (log : List TeamEvent) (workspaceId : String) (m : MemberRecord)
    (i : Invitation) (inviterRole : MemberRole) : Prop where
  invited : .invited i inviterRole ∈ log
  joined : .joined i.invitationId workspaceId m.memberId m.role ∈ log
  workspace : i.workspaceId = workspaceId
  invitee : i.invitee = m.memberId
  role : i.role = m.role
  below : m.role ≤ inviterRole

/-- A member has one active record at most. -/
def OneRecord (w : WorkspaceRecord) : Prop :=
  w.members.Pairwise fun m n ↦ m.removedAt = none → n.removedAt = none → m.memberId ≠ n.memberId

theorem OneRecord.admit {member : MemberRecord} (h : w.OneRecord)
    (hnew : w.activeMember member.memberId = none) :
    ({ w with members := w.members ++ [member] } : WorkspaceRecord).OneRecord := by
  refine List.pairwise_append.mpr ⟨h, List.pairwise_singleton _ _, ?_⟩
  intro m hm n hn hactive _ heq
  rw [List.mem_singleton.mp hn] at heq
  exact Iff.mp activeMember_eq_none hnew m hm heq hactive

theorem OneRecord.close {pre post : List MemberRecord} {member : MemberRecord} (stamp : String)
    (h : w.OneRecord) (hsplit : w.members = pre ++ member :: post) :
    ({ w with
      members := pre ++ { member with removedAt := some stamp } :: post } :
        WorkspaceRecord).OneRecord := by
  rw [OneRecord, hsplit, List.pairwise_append, List.pairwise_cons] at h
  refine List.pairwise_append.mpr ⟨h.1, List.pairwise_cons.mpr ⟨?_, h.2.1.2⟩, ?_⟩
  · intro n hn hclosed
    simp at hclosed
  · intro m hm n hn
    rcases List.mem_cons.mp hn with rfl | hn
    · intro _ hclosed
      simp at hclosed
    · exact h.2.2 m hm n (List.mem_cons_of_mem _ hn)

/-- One active record a member, one active owner, who made the workspace, and
an invitation behind every other record. -/
structure Sound (log : List TeamEvent) (w : WorkspaceRecord) : Prop where
  oneRecord : w.members.Pairwise fun m n ↦
    m.removedAt = none → n.removedAt = none → m.memberId ≠ n.memberId
  oneOwner : ∃ m, .created w.workspaceId m.memberId ∈ log ∧ m.removedAt = none ∧
    w.members.filter (fun m ↦ m.role = .owner) = [m]
  vouched : ∀ m ∈ w.members, m.role ≠ .owner →
    ∃ i inviterRole, Vouched log w.workspaceId m i inviterRole

theorem Vouched.mono {m : MemberRecord} {i : Invitation} {r : MemberRole}
    (h : Vouched log w.workspaceId m i r) (hlog : ∀ e ∈ log, e ∈ log') :
    Vouched log' w.workspaceId m i r :=
  { h with invited := hlog _ h.invited, joined := hlog _ h.joined }

theorem Sound.mono (h : w.Sound log) (hlog : ∀ e ∈ log, e ∈ log') : w.Sound log' where
  oneRecord := h.oneRecord
  oneOwner := by
    obtain ⟨m, hcreated, hm⟩ := h.oneOwner
    exact ⟨m, hlog _ hcreated, hm⟩
  vouched m hm hrole := by
    obtain ⟨i, r, hv⟩ := h.vouched m hm hrole
    exact ⟨i, r, hv.mono hlog⟩

theorem Sound.congr {w' : WorkspaceRecord} (h : w.Sound log) (hid : w'.workspaceId = w.workspaceId)
    (hmembers : w'.members = w.members) : w'.Sound log := by
  obtain ⟨hone, howner, hvouched⟩ := h
  exact ⟨by rw [hmembers]; exact hone, by rw [hid, hmembers]; exact howner,
    by rw [hid, hmembers]; exact hvouched⟩

theorem Sound.welcome {member : MemberRecord} {i : Invitation} {r : MemberRole} (h : w.Sound log)
    (hnew : w.activeMember member.memberId = none) (hrole : member.role ≠ .owner)
    (hv : Vouched log w.workspaceId member i r) :
    ({ w with members := w.members ++ [member] } : WorkspaceRecord).Sound log where
  oneRecord := OneRecord.admit h.oneRecord hnew
  oneOwner := by
    obtain ⟨m, hcreated, hactive, howners⟩ := h.oneOwner
    refine ⟨m, hcreated, hactive, ?_⟩
    rw [List.filter_append, howners]
    simp [hrole]
  vouched m hm hm' := by
    rcases List.mem_append.mp hm with hm | hm
    · exact h.vouched m hm hm'
    · rw [List.mem_singleton.mp hm]
      exact ⟨i, r, hv⟩

theorem Sound.close {pre post : List MemberRecord} {member : MemberRecord} (stamp : String)
    (h : w.Sound log) (hsplit : w.members = pre ++ member :: post) (hrole : member.role ≠ .owner) :
    ({ w with
      members := pre ++ { member with removedAt := some stamp } :: post } : WorkspaceRecord).Sound
        log where
  oneRecord := OneRecord.close stamp h.oneRecord hsplit
  oneOwner := by
    obtain ⟨m, hcreated, hactive, howners⟩ := h.oneOwner
    refine ⟨m, hcreated, hactive, ?_⟩
    rw [hsplit] at howners
    rw [← howners]
    simp [List.filter_append, hrole]
  vouched m hm hm' := by
    have hold : ∀ n ∈ pre ++ member :: post, n.role ≠ .owner →
        ∃ i inviterRole, Vouched log w.workspaceId n i inviterRole := by
      rw [← hsplit]
      exact h.vouched
    rcases List.mem_append.mp hm with hm | hm
    · exact hold m (List.mem_append_left _ hm) hm'
    · rcases List.mem_cons.mp hm with rfl | hm
      · obtain ⟨i, r, hv⟩ := hold member (by simp) hrole
        exact ⟨i, r, hv.invited, hv.joined, hv.workspace, hv.invitee, hv.role, hv.below⟩
      · exact hold m (List.mem_append_right _ (List.mem_cons_of_mem _ hm)) hm'

theorem activeMember_admit {member : MemberRecord} {members : List MemberRecord}
    (hw : w.activeMember memberId = none)
    (hmembers : members = w.members ++ [member]) (hne : memberId ≠ member.memberId) :
    ({ w with members := members } : WorkspaceRecord).activeMember memberId = none := by
  subst hmembers
  rw [activeMember_eq_none] at hw ⊢
  intro m hm heq
  rcases List.mem_append.mp hm with hm | hm
  · exact hw m hm heq
  · rw [List.mem_singleton.mp hm] at heq
    exact absurd heq.symm hne

theorem activeMember_close {pre post : List MemberRecord} {member : MemberRecord} (stamp : String)
    (hsplit : w.members = pre ++ member :: post) (hw : w.activeMember memberId = none) :
    ({ w with
      members := pre ++ { member with removedAt := some stamp } :: post } :
        WorkspaceRecord).activeMember memberId = none := by
  rw [activeMember_eq_none] at hw ⊢
  rw [hsplit] at hw
  intro m hm heq
  rcases List.mem_append.mp hm with hm | hm
  · exact hw m (List.mem_append_left _ hm) heq
  · rcases List.mem_cons.mp hm with rfl | hm
    · simp
    · exact hw m (List.mem_append_right _ (List.mem_cons_of_mem _ hm)) heq

end WorkspaceRecord

/-! ## Invitations -/

/-- What an invitation is for: its id, the workspace, the invitee and the role. -/
def Invitation.terms (i : Invitation) : String × String × String × MemberRole :=
  (i.invitationId, i.workspaceId, i.invitee, i.role)

/-- The state of the invitations beside the workspaces and the history. -/
structure InvitationsSound (registry : List WorkspaceRecord) (log : List TeamEvent)
    (invitations : List Invitation) : Prop where
  ids : (invitations.map Invitation.invitationId).Nodup
  placed : ∀ i ∈ invitations, ∃ w ∈ registry, w.workspaceId = i.workspaceId
  vouched : ∀ i ∈ invitations, i.role ≠ .owner ∧ ∃ i₀ r, .invited i₀ r ∈ log ∧
    i₀.invitationId = i.invitationId ∧ i₀.workspaceId = i.workspaceId ∧
    i₀.invitee = i.invitee ∧ i₀.role = i.role ∧ i.role ≤ r
  single : ∀ i ∈ invitations, ∀ j ∈ invitations, i.state = "pending" → j.state = "pending" →
    i.workspaceId = j.workspaceId → i.invitee = j.invitee → i.invitationId = j.invitationId
  waiting : ∀ i ∈ invitations, i.state = "pending" → ∀ w ∈ registry,
    w.workspaceId = i.workspaceId → w.activeMember i.invitee = none
  accepted : ∀ i ∈ invitations, i.state = "accepted" ↔
    .joined i.invitationId i.workspaceId i.invitee i.role ∈ log
  known : ∀ id workspaceId m role, .joined id workspaceId m role ∈ log →
    ∃ i ∈ invitations, i.terms = (id, workspaceId, m, role)

namespace InvitationsSound

variable {registry registry' : List WorkspaceRecord} {log log' : List TeamEvent}
  {invitations pre post : List Invitation} {i : Invitation}

/-- A longer history without another acceptance. -/
theorem mono (h : InvitationsSound registry log invitations) (hlog : ∀ e ∈ log, e ∈ log')
    (hjoined : ∀ id workspaceId m role, .joined id workspaceId m role ∈ log' →
      .joined id workspaceId m role ∈ log) : InvitationsSound registry log' invitations where
  ids := h.ids
  placed := h.placed
  vouched j hj := by
    obtain ⟨hrole, i₀, r, hinvited, hrest⟩ := h.vouched j hj
    exact ⟨hrole, i₀, r, hlog _ hinvited, hrest⟩
  single := h.single
  waiting := h.waiting
  accepted j hj := by
    rw [h.accepted j hj]
    exact ⟨fun hmem ↦ hlog _ hmem, fun hmem ↦ hjoined _ _ _ _ hmem⟩
  known id workspaceId m role hmem := h.known id workspaceId m role (hjoined _ _ _ _ hmem)

/-- A registry with the same workspaces and no member more for whom an
invitation is waiting. -/
theorem congr (h : InvitationsSound registry log invitations)
    (hplaced : ∀ w ∈ registry, ∃ w' ∈ registry', w'.workspaceId = w.workspaceId)
    (hwaiting : ∀ j ∈ invitations, j.state = "pending" → ∀ w' ∈ registry',
      w'.workspaceId = j.workspaceId → w'.activeMember j.invitee = none) :
    InvitationsSound registry' log invitations :=
  { h with
    placed := fun j hj ↦ by
      obtain ⟨w, hw, hid⟩ := h.placed j hj
      obtain ⟨w', hw', hid'⟩ := hplaced w hw
      exact ⟨w', hw', hid'.trans hid⟩
    waiting := hwaiting }

/-- A pending invitation is closed without a new member. -/
theorem settle {state : String} (h : InvitationsSound registry log invitations)
    (hsplit : invitations = pre ++ i :: post) (hpending : i.state = "pending")
    (hstate : state ≠ "pending") (hnot : state ≠ "accepted") :
    InvitationsSound registry log (pre ++ { i with state := state } :: post) := by
  have hkeys := Registry.keys_replaced Invitation.invitationId { i with state := state } hsplit rfl
  have hi : i ∈ invitations := by simp [hsplit]
  have hmem : ∀ j ∈ pre ++ { i with state := state } :: post,
      j = { i with state := state } ∨ (j ∈ invitations ∧ j.invitationId ≠ i.invitationId) :=
    fun j hj ↦ Registry.mem_replaced h.ids hsplit hj
  refine ⟨by rw [hkeys]; exact h.ids, ?_, ?_, ?_, ?_, ?_, ?_⟩
  · intro j hj
    rcases hmem j hj with rfl | hj
    · exact h.placed i hi
    · exact h.placed j hj.1
  · intro j hj
    rcases hmem j hj with rfl | hj
    · exact h.vouched i hi
    · exact h.vouched j hj.1
  · intro j hj k hk hjp hkp
    rcases hmem j hj with rfl | hj
    · exact absurd hjp hstate
    · rcases hmem k hk with rfl | hk
      · exact absurd hkp hstate
      · exact h.single j hj.1 k hk.1 hjp hkp
  · intro j hj hjp
    rcases hmem j hj with rfl | hj
    · exact absurd hjp hstate
    · exact h.waiting j hj.1 hjp
  · intro j hj
    rcases hmem j hj with rfl | hj
    · refine ⟨fun heq ↦ absurd heq hnot, fun hjoined ↦ ?_⟩
      have haccepted := (h.accepted i hi).mpr hjoined
      rw [hpending] at haccepted
      exact absurd haccepted (by decide)
    · exact h.accepted j hj.1
  · intro id workspaceId m role hjoined
    obtain ⟨j, hj, hterms⟩ := h.known id workspaceId m role hjoined
    obtain ⟨k, hk, hkterms⟩ := Registry.exists_replaced Invitation.terms
      { i with state := state } hsplit rfl hj
    exact ⟨k, hk, hkterms.trans hterms⟩

/-- A pending invitation is closed by the membership it was for. -/
theorem accept (h : InvitationsSound registry log invitations)
    (hsplit : invitations = pre ++ i :: post) :
    InvitationsSound registry (log ++ [.joined i.invitationId i.workspaceId i.invitee i.role])
      (pre ++ { i with state := "accepted" } :: post) := by
  have hkeys := Registry.keys_replaced Invitation.invitationId { i with state := "accepted" } hsplit
    rfl
  have hi : i ∈ invitations := by simp [hsplit]
  have hno : "accepted" ≠ "pending" := by decide
  have hmem : ∀ j ∈ pre ++ { i with state := "accepted" } :: post,
      j = { i with state := "accepted" } ∨
        (j ∈ invitations ∧ j.invitationId ≠ i.invitationId) :=
    fun j hj ↦ Registry.mem_replaced h.ids hsplit hj
  have hvouched : ∀ j ∈ invitations, j.role ≠ .owner ∧ ∃ i₀ r,
      .invited i₀ r ∈ log ++ [.joined i.invitationId i.workspaceId i.invitee i.role] ∧
      i₀.invitationId = j.invitationId ∧ i₀.workspaceId = j.workspaceId ∧
      i₀.invitee = j.invitee ∧ i₀.role = j.role ∧ j.role ≤ r := by
    intro j hj
    obtain ⟨hrole, i₀, r, hinvited, hrest⟩ := h.vouched j hj
    exact ⟨hrole, i₀, r, List.mem_append_left _ hinvited, hrest⟩
  refine ⟨by rw [hkeys]; exact h.ids, ?_, ?_, ?_, ?_, ?_, ?_⟩
  · intro j hj
    rcases hmem j hj with rfl | hj
    · exact h.placed i hi
    · exact h.placed j hj.1
  · intro j hj
    rcases hmem j hj with rfl | hj
    · exact hvouched i hi
    · exact hvouched j hj.1
  · intro j hj k hk hjp hkp
    rcases hmem j hj with rfl | hj
    · exact absurd hjp hno
    · rcases hmem k hk with rfl | hk
      · exact absurd hkp hno
      · exact h.single j hj.1 k hk.1 hjp hkp
  · intro j hj hjp
    rcases hmem j hj with rfl | hj
    · exact absurd hjp hno
    · exact h.waiting j hj.1 hjp
  · intro j hj
    rcases hmem j hj with rfl | hj
    · exact ⟨fun _ ↦ by simp, fun _ ↦ rfl⟩
    · rw [h.accepted j hj.1]
      refine ⟨fun hjoined ↦ List.mem_append_left _ hjoined, fun hjoined ↦ ?_⟩
      refine (List.mem_append.mp hjoined).resolve_right fun hnew ↦ ?_
      simp only [List.mem_singleton, TeamEvent.joined.injEq] at hnew
      exact absurd hnew.1 hj.2
  · intro id workspaceId m role hjoined
    rcases List.mem_append.mp hjoined with hjoined | hjoined
    · obtain ⟨j, hj, hterms⟩ := h.known id workspaceId m role hjoined
      obtain ⟨k, hk, hkterms⟩ := Registry.exists_replaced Invitation.terms
        { i with state := "accepted" } hsplit rfl hj
      exact ⟨k, hk, hkterms.trans hterms⟩
    · simp only [List.mem_singleton, TeamEvent.joined.injEq] at hjoined
      obtain ⟨rfl, rfl, rfl, rfl⟩ := hjoined
      exact ⟨{ i with state := "accepted" }, by simp, rfl⟩

/-- A new invitation of somebody who is not a member and not invited yet. -/
theorem invite {inviterRole : MemberRole} {w : WorkspaceRecord}
    (h : InvitationsSound registry log invitations)
    (hids : (registry.map WorkspaceRecord.workspaceId).Nodup)
    (hfresh : ∀ j ∈ invitations, j.invitationId ≠ i.invitationId) (hw : w ∈ registry)
    (hworkspace : w.workspaceId = i.workspaceId) (hrole : i.role ≠ .owner)
    (hbelow : i.role ≤ inviterRole) (hnone : w.activeMember i.invitee = none)
    (hpending : i.state = "pending")
    (hother : ∀ j ∈ invitations,
      ¬(j.workspaceId = i.workspaceId ∧ j.invitee = i.invitee ∧ j.state = "pending")) :
    InvitationsSound registry (log ++ [.invited i inviterRole]) (invitations ++ [i]) := by
  have hjoined : ∀ id workspaceId m role,
      .joined id workspaceId m role ∈ log ++ [.invited i inviterRole] →
        .joined id workspaceId m role ∈ log := by
    intro id workspaceId m role hmem
    simpa using hmem
  refine ⟨?_, ?_, ?_, ?_, ?_, ?_, ?_⟩
  · rw [List.map_append, List.map_singleton]
    refine List.nodup_append.mpr ⟨h.ids, List.nodup_singleton _, ?_⟩
    intro a ha b hb
    obtain ⟨j, hj, rfl⟩ := List.mem_map.mp ha
    rw [List.mem_singleton.mp hb]
    exact hfresh j hj
  · intro j hj
    rcases List.mem_append.mp hj with hj | hj
    · exact h.placed j hj
    · rw [List.mem_singleton.mp hj]
      exact ⟨w, hw, hworkspace⟩
  · intro j hj
    rcases List.mem_append.mp hj with hj | hj
    · obtain ⟨hjrole, i₀, r, hinvited, hrest⟩ := h.vouched j hj
      exact ⟨hjrole, i₀, r, List.mem_append_left _ hinvited, hrest⟩
    · rw [List.mem_singleton.mp hj]
      exact ⟨hrole, i, inviterRole, by simp, rfl, rfl, rfl, rfl, hbelow⟩
  · intro j hj k hk hjp hkp hws hinv
    rcases List.mem_append.mp hj with hj | hj
    · rcases List.mem_append.mp hk with hk | hk
      · exact h.single j hj k hk hjp hkp hws hinv
      · rw [List.mem_singleton.mp hk] at hws hinv
        exact absurd ⟨hws, hinv, hjp⟩ (hother j hj)
    · rw [List.mem_singleton.mp hj] at hws hinv ⊢
      rcases List.mem_append.mp hk with hk | hk
      · exact absurd ⟨hws.symm, hinv.symm, hkp⟩ (hother k hk)
      · rw [List.mem_singleton.mp hk]
  · intro j hj hjp v hv hid
    rcases List.mem_append.mp hj with hj | hj
    · exact h.waiting j hj hjp v hv hid
    · rw [List.mem_singleton.mp hj] at hid ⊢
      rw [Registry.eq_of_key hids hv hw (hid.trans hworkspace.symm)]
      exact hnone
  · intro j hj
    rcases List.mem_append.mp hj with hj | hj
    · rw [h.accepted j hj]
      exact ⟨fun hmem ↦ List.mem_append_left _ hmem, fun hmem ↦ hjoined _ _ _ _ hmem⟩
    · rw [List.mem_singleton.mp hj, hpending]
      refine ⟨fun heq ↦ absurd heq (by decide), fun hmem ↦ ?_⟩
      obtain ⟨k, hk, hterms⟩ := h.known _ _ _ _ (hjoined _ _ _ _ hmem)
      exact absurd (congrArg Prod.fst hterms) (hfresh k hk)
  · intro id workspaceId m role hmem
    obtain ⟨j, hj, hterms⟩ := h.known id workspaceId m role (hjoined _ _ _ _ hmem)
    exact ⟨j, List.mem_append_left _ hj, hterms⟩

end InvitationsSound

/-! ## Every state -/

/-- An unexpired invitation is accepted although its workspace is closed. -/
def TeamControlPlane.strands (codec : ControlCodec) (s : TeamControlPlane) (occasion : Occasion) :
    TeamCall → Bool
  | .acceptInvitation invitationId acceptor =>
      (s.invitations.find? fun i ↦ i.invitationId == invitationId).any fun i ↦
        i.state = "pending" ∧ i.invitee = acceptor ∧
          ((codec.instant i.expiresAt).any fun e ↦ occasion.now < e) ∧
          (s.workspace i.workspaceId).any fun w ↦ w.status ≠ .active
  | _ => false

namespace TeamHistory

variable {codec : ControlCodec} {h h' : TeamHistory} {action : TeamAction}

/-- The drawn id is new, as `Uuid::new_v4` promises. -/
def FreshId (h : TeamHistory) (action : TeamAction) : Prop :=
  (∀ w ∈ h.plane.registry, w.workspaceId ≠ action.occasion.newId) ∧
    ∀ i ∈ h.plane.invitations, i.invitationId ≠ action.occasion.newId

/-- The id is new, and no invitation to a closed workspace is accepted. -/
def Admissible (codec : ControlCodec) (h : TeamHistory) (action : TeamAction) : Prop :=
  h.FreshId action ∧ h.plane.strands codec action.occasion action.call = false

/-- The invariant of a team. -/
structure Consistent (h : TeamHistory) : Prop where
  ids : (h.plane.registry.map WorkspaceRecord.workspaceId).Nodup
  sound : ∀ w ∈ h.plane.registry, w.Sound h.log
  created : ∀ id owner, .created id owner ∈ h.log → ∃ w ∈ h.plane.registry, w.workspaceId = id
  creator : ∀ id owner owner', .created id owner ∈ h.log → .created id owner' ∈ h.log →
    owner = owner'
  invitations : InvitationsSound h.plane.registry h.log h.plane.invitations

theorem consistent_opened : Consistent opened where
  ids := List.nodup_nil
  sound := by simp [opened]
  created := by simp [opened]
  creator := by simp [opened]
  invitations :=
    { ids := List.nodup_nil
      placed := by simp [opened]
      vouched := by simp [opened]
      single := by simp [opened]
      waiting := by simp [opened]
      accepted := by simp [opened]
      known := by simp [opened] }

/-- A history goes on by events of other kinds. -/
def Quiet (events : List TeamEvent) : Prop :=
  ∀ e ∈ events, (∃ workspaceId memberId, e = .left workspaceId memberId) ∨
    ∃ workspaceId, e = .filesRemoved workspaceId

theorem mem_quiet_created {events log : List TeamEvent} (hquiet : Quiet events) {id owner : String}
    (hmem : .created id owner ∈ log ++ events) : .created id owner ∈ log := by
  refine (List.mem_append.mp hmem).resolve_right fun hnew ↦ ?_
  rcases hquiet _ hnew with ⟨a, b, heq⟩ | ⟨a, heq⟩ <;> cases heq

theorem mem_quiet_joined {events log : List TeamEvent} (hquiet : Quiet events)
    {id workspaceId m : String} {role : MemberRole}
    (hmem : .joined id workspaceId m role ∈ log ++ events) :
    .joined id workspaceId m role ∈ log := by
  refine (List.mem_append.mp hmem).resolve_right fun hnew ↦ ?_
  rcases hquiet _ hnew with ⟨a, b, heq⟩ | ⟨a, heq⟩ <;> cases heq

/-- One workspace row is replaced by one with the same id, in which nobody is
active who was not. -/
theorem Consistent.replace {before after : List WorkspaceRecord} {w : WorkspaceRecord}
    {events : List TeamEvent} (hs : Consistent h) (w' : WorkspaceRecord)
    (hsplit : h.plane.registry = before ++ w :: after) (hid : w'.workspaceId = w.workspaceId)
    (hsound : w'.Sound h.log)
    (hnone : ∀ m, w.activeMember m = none → w'.activeMember m = none) (hquiet : Quiet events)
    (hregistry : h'.plane.registry = before ++ w' :: after)
    (hinvitations : h'.plane.invitations = h.plane.invitations)
    (hlog : h'.log = h.log ++ events) : Consistent h' := by
  have hw : w ∈ h.plane.registry := by simp [hsplit]
  have hold : ∀ e ∈ h.log, e ∈ h.log ++ events := fun e he ↦ List.mem_append_left _ he
  have hmem : ∀ x ∈ before ++ w' :: after,
      x = w' ∨ (x ∈ h.plane.registry ∧ x.workspaceId ≠ w.workspaceId) :=
    fun x hx ↦ Registry.mem_replaced hs.ids hsplit hx
  have hkept : ∀ x ∈ h.plane.registry,
      ∃ y ∈ before ++ w' :: after, y.workspaceId = x.workspaceId := fun x hx ↦
    Registry.exists_replaced WorkspaceRecord.workspaceId w' hsplit hid hx
  refine ⟨?_, ?_, ?_, ?_, ?_⟩
  · rw [hregistry, Registry.keys_replaced WorkspaceRecord.workspaceId w' hsplit hid]
    exact hs.ids
  · intro x hx
    rw [hregistry] at hx
    rw [hlog]
    rcases hmem x hx with rfl | hx
    · exact hsound.mono hold
    · exact (hs.sound x hx.1).mono hold
  · intro id owner hcreated
    rw [hlog] at hcreated
    obtain ⟨x, hx, hxid⟩ := hs.created id owner (mem_quiet_created hquiet hcreated)
    obtain ⟨y, hy, hyid⟩ := hkept x hx
    exact ⟨y, by rw [hregistry]; exact hy, hyid.trans hxid⟩
  · intro id owner owner' ho ho'
    rw [hlog] at ho ho'
    exact hs.creator id owner owner' (mem_quiet_created hquiet ho) (mem_quiet_created hquiet ho')
  · rw [hregistry, hinvitations, hlog]
    refine (hs.invitations.mono hold fun _ _ _ _ ↦ mem_quiet_joined hquiet).congr hkept ?_
    intro j hj hpending x hx hxid
    rcases hmem x hx with rfl | hx
    · exact hnone _ (hs.invitations.waiting j hj hpending w hw (hid.symm.trans hxid))
    · exact hs.invitations.waiting j hj hpending x hx.1 hxid

/-- The invitations change alone. -/
theorem Consistent.settle {pre post : List Invitation} {i : Invitation}
    (hs : Consistent h) (state : String) (hsplit : h.plane.invitations = pre ++ i :: post)
    (hpending : i.state = "pending") (hstate : state ≠ "pending") (hnot : state ≠ "accepted")
    (hregistry : h'.plane.registry = h.plane.registry)
    (hinvitations : h'.plane.invitations = pre ++ { i with state := state } :: post)
    (hlog : h'.log = h.log) : Consistent h' := by
  refine ⟨?_, ?_, ?_, ?_, ?_⟩
  · rw [hregistry]
    exact hs.ids
  · rw [hregistry, hlog]
    exact hs.sound
  · rw [hregistry, hlog]
    exact hs.created
  · rw [hlog]
    exact hs.creator
  · rw [hregistry, hlog, hinvitations]
    exact hs.invitations.settle hsplit hpending hstate hnot

/-- A workspace is made. -/
theorem Consistent.create {w : WorkspaceRecord} {m : MemberRecord} (hs : Consistent h)
    (hfresh : ∀ x ∈ h.plane.registry, x.workspaceId ≠ w.workspaceId) (hmembers : w.members = [m])
    (howner : m.role = .owner) (hactive : m.removedAt = none)
    (hregistry : h'.plane.registry = h.plane.registry ++ [w])
    (hinvitations : h'.plane.invitations = h.plane.invitations)
    (hlog : h'.log = h.log ++ [.created w.workspaceId m.memberId]) : Consistent h' := by
  have hold : ∀ e ∈ h.log, e ∈ h'.log := fun e he ↦ by
    rw [hlog]
    exact List.mem_append_left _ he
  have hnew : .created w.workspaceId m.memberId ∈ h'.log := by simp [hlog]
  have hcreated : ∀ id owner, .created id owner ∈ h'.log → .created id owner ∈ h.log ∨
      (id = w.workspaceId ∧ owner = m.memberId) := by
    intro id owner hmem
    rw [hlog, List.mem_append, List.mem_singleton, TeamEvent.created.injEq] at hmem
    exact hmem
  have hunknown : ∀ owner, .created w.workspaceId owner ∉ h.log := by
    intro owner hmem
    obtain ⟨x, hx, hid⟩ := hs.created _ _ hmem
    exact hfresh x hx hid
  refine ⟨?_, ?_, ?_, ?_, ?_⟩
  · rw [hregistry, List.map_append, List.map_singleton]
    refine List.nodup_append.mpr ⟨hs.ids, List.nodup_singleton _, ?_⟩
    intro a ha b hb
    obtain ⟨x, hx, rfl⟩ := List.mem_map.mp ha
    rw [List.mem_singleton.mp hb]
    exact hfresh x hx
  · intro x hx
    rw [hregistry] at hx
    rcases List.mem_append.mp hx with hx | hx
    · exact (hs.sound x hx).mono hold
    · rw [List.mem_singleton.mp hx]
      refine ⟨by rw [hmembers]; exact List.pairwise_singleton _ _, ⟨m, hnew, hactive, ?_⟩, ?_⟩
      · rw [hmembers]
        simp [howner]
      · intro n hn hrole
        rw [hmembers, List.mem_singleton] at hn
        rw [hn] at hrole
        exact absurd howner hrole
  · intro id owner hmem
    rw [hregistry]
    rcases hcreated id owner hmem with hmem | ⟨rfl, -⟩
    · obtain ⟨x, hx, hid⟩ := hs.created id owner hmem
      exact ⟨x, List.mem_append_left _ hx, hid⟩
    · exact ⟨w, by simp, rfl⟩
  · intro id owner owner' ho ho'
    rcases hcreated id owner ho with ho | ⟨rfl, rfl⟩
    · rcases hcreated id owner' ho' with ho' | ⟨rfl, rfl⟩
      · exact hs.creator id owner owner' ho ho'
      · exact absurd ho (hunknown owner)
    · rcases hcreated _ owner' ho' with ho' | ⟨-, rfl⟩
      · exact absurd ho' (hunknown owner')
      · rfl
  · rw [hregistry, hinvitations]
    refine (hs.invitations.mono hold fun id workspaceId k role hmem ↦ ?_).congr ?_ ?_
    · rw [hlog] at hmem
      simpa using hmem
    · exact fun x hx ↦ ⟨x, List.mem_append_left _ hx, rfl⟩
    · intro j hj hpending x hx hid
      rcases List.mem_append.mp hx with hx | hx
      · exact hs.invitations.waiting j hj hpending x hx hid
      · obtain ⟨y, hy, hyid⟩ := hs.invitations.placed j hj
        rw [List.mem_singleton.mp hx] at hid
        exact absurd (hyid.trans hid.symm) (hfresh y hy)

/-- Somebody is invited. -/
theorem Consistent.invite {w : WorkspaceRecord} {i : Invitation} {inviterRole : MemberRole}
    (hs : Consistent h) (hfresh : ∀ j ∈ h.plane.invitations, j.invitationId ≠ i.invitationId)
    (hw : w ∈ h.plane.registry) (hworkspace : w.workspaceId = i.workspaceId)
    (hrole : i.role ≠ .owner) (hbelow : i.role ≤ inviterRole)
    (hnone : w.activeMember i.invitee = none) (hpending : i.state = "pending")
    (hother : ∀ j ∈ h.plane.invitations,
      ¬(j.workspaceId = i.workspaceId ∧ j.invitee = i.invitee ∧ j.state = "pending"))
    (hregistry : h'.plane.registry = h.plane.registry)
    (hinvitations : h'.plane.invitations = h.plane.invitations ++ [i])
    (hlog : h'.log = h.log ++ [.invited i inviterRole]) : Consistent h' := by
  have hcreated : ∀ id owner, .created id owner ∈ h'.log → .created id owner ∈ h.log := by
    intro id owner hmem
    rw [hlog] at hmem
    simpa using hmem
  refine ⟨?_, ?_, ?_, ?_, ?_⟩
  · rw [hregistry]
    exact hs.ids
  · rw [hregistry, hlog]
    exact fun x hx ↦ (hs.sound x hx).mono fun e he ↦ List.mem_append_left _ he
  · rw [hregistry]
    exact fun id owner hmem ↦ hs.created id owner (hcreated id owner hmem)
  · exact fun id owner owner' ho ho' ↦
      hs.creator id owner owner' (hcreated id owner ho) (hcreated id owner' ho')
  · rw [hregistry, hinvitations, hlog]
    exact hs.invitations.invite hs.ids hfresh hw hworkspace hrole hbelow hnone hpending hother

/-- An invitation is accepted, and its invitee is a member from then on. -/
theorem Consistent.join {pre post : List Invitation} {i : Invitation}
    {before after : List WorkspaceRecord} {w : WorkspaceRecord} {member : MemberRecord}
    (hs : Consistent h) (hsplit : h.plane.invitations = pre ++ i :: post)
    (hpending : i.state = "pending") (hregistry₀ : h.plane.registry = before ++ w :: after)
    (hworkspace : w.workspaceId = i.workspaceId) (hnone : w.activeMember i.invitee = none)
    (hid : member.memberId = i.invitee) (hrole : member.role = i.role)
    (hregistry : h'.plane.registry =
      before ++ { w with members := w.members ++ [member] } :: after)
    (hinvitations : h'.plane.invitations = pre ++ { i with state := "accepted" } :: post)
    (hlog : h'.log = h.log ++ [.joined i.invitationId i.workspaceId member.memberId member.role]) :
    Consistent h' := by
  have hi : i ∈ h.plane.invitations := by simp [hsplit]
  have hold : ∀ e ∈ h.log, e ∈ h'.log := fun e he ↦ by
    rw [hlog]
    exact List.mem_append_left _ he
  have hcreated : ∀ id owner, .created id owner ∈ h'.log → .created id owner ∈ h.log := by
    intro id owner hmem
    rw [hlog] at hmem
    simpa using hmem
  let w' : WorkspaceRecord := { w with members := w.members ++ [member] }
  have hmem : ∀ x ∈ before ++ w' :: after,
      x = w' ∨ (x ∈ h.plane.registry ∧ x.workspaceId ≠ w.workspaceId) :=
    fun x hx ↦ Registry.mem_replaced hs.ids hregistry₀ hx
  have hkept : ∀ x ∈ h.plane.registry,
      ∃ y ∈ before ++ w' :: after, y.workspaceId = x.workspaceId := fun x hx ↦
    Registry.exists_replaced WorkspaceRecord.workspaceId w' hregistry₀ rfl hx
  have hw : w ∈ h.plane.registry := by simp [hregistry₀]
  refine ⟨?_, ?_, ?_, ?_, ?_⟩
  · rw [hregistry, Registry.keys_replaced WorkspaceRecord.workspaceId w' hregistry₀ rfl]
    exact hs.ids
  · intro x hx
    rw [hregistry] at hx
    rcases hmem x hx with rfl | hx
    · obtain ⟨hnotOwner, i₀, r, hinvited, hid₀, hws₀, hinvitee₀, hrole₀, hbelow⟩ :=
        hs.invitations.vouched i hi
      refine ((hs.sound w hw).mono hold).welcome (by rw [hid]; exact hnone)
        (by rw [hrole]; exact hnotOwner) (i := i₀) (r := r) ?_
      refine ⟨hold _ hinvited, ?_, hws₀.trans hworkspace.symm, hinvitee₀.trans hid.symm,
        hrole₀.trans hrole.symm, by rw [hrole]; exact hbelow⟩
      rw [hid₀, hworkspace, hlog]
      simp
    · exact (hs.sound x hx.1).mono hold
  · rw [hregistry]
    intro id owner hcreate
    obtain ⟨x, hx, hxid⟩ := hs.created id owner (hcreated id owner hcreate)
    obtain ⟨y, hy, hyid⟩ := hkept x hx
    exact ⟨y, hy, hyid.trans hxid⟩
  · exact fun id owner owner' ho ho' ↦
      hs.creator id owner owner' (hcreated id owner ho) (hcreated id owner' ho')
  · rw [hregistry, hinvitations, hlog, hid, hrole]
    refine (hs.invitations.accept hsplit).congr hkept ?_
    intro j hj hjpending x hx hxid
    have hno : "accepted" ≠ "pending" := by decide
    rcases Registry.mem_replaced hs.invitations.ids hsplit hj with rfl | ⟨hj, hjid⟩
    · exact absurd hjpending hno
    · rcases hmem x hx with rfl | ⟨hx, -⟩
      · have hjws : w.workspaceId = j.workspaceId := hxid
        refine WorkspaceRecord.activeMember_admit
          (hs.invitations.waiting j hj hjpending w hw hjws) rfl ?_
        -- somebody else's: one invitation is pending for the new member
        intro hsame
        exact hjid (hs.invitations.single j hj i hi hjpending hpending
          (hjws.symm.trans hworkspace) (hsame.trans hid))
      · exact hs.invitations.waiting j hj hjpending x hx hxid

theorem mem_of_workspace {id : String} {w : WorkspaceRecord} (hw : h.plane.workspace id = some w) :
    w ∈ h.plane.registry ∧ w.workspaceId = id := by
  have hfound := List.find?_some hw
  exact ⟨List.mem_of_find?_eq_some hw, by simpa using hfound⟩

theorem workspace_of_mem (hs : Consistent h) {w : WorkspaceRecord} (hw : w ∈ h.plane.registry) :
    h.plane.workspace w.workspaceId = some w := by
  cases hcase : h.plane.workspace w.workspaceId with
  | none =>
      have hnone := List.find?_eq_none.mp hcase w hw
      simp at hnone
  | some v =>
      obtain ⟨hv, hid⟩ := mem_of_workspace hcase
      rw [Registry.eq_of_key hs.ids hv hw hid]

theorem find_of_firstWith {invitationId : String} {pre post : List Invitation} {i : Invitation}
    {invitations : List Invitation}
    (hfirst : FirstWith Invitation.invitationId invitationId invitations pre i post) :
    invitations.find? (fun j ↦ j.invitationId == invitationId) = some i := by
  rw [hfirst.split]
  exact Registry.find?_of_split hfirst.before (by simp [hfirst.found])

/-- In a consistent state an acceptance fails on an open invitation only where
the workspace is closed. -/
theorem strands_of_stranded {invitationId acceptor : String} {pre post : List Invitation}
    {i : Invitation} {occasion : Occasion} (hs : Consistent h)
    (hfirst : FirstWith Invitation.invitationId invitationId h.plane.invitations pre i post)
    (hpending : i.state = "pending") (hinvitee : i.invitee = acceptor)
    (hclosed : ∀ w, h.plane.workspace i.workspaceId = some w → w.status ≠ .active ∨
      w.activeMember acceptor ≠ none)
    (hnow : ∃ e, codec.instant i.expiresAt = some e ∧ occasion.now < e) :
    h.plane.strands codec occasion (.acceptInvitation invitationId acceptor) = true := by
  have hi : i ∈ h.plane.invitations := by simp [hfirst.split]
  obtain ⟨w, hw, hid⟩ := hs.invitations.placed i hi
  have hfound := workspace_of_mem hs hw
  rw [hid] at hfound
  have hnone := hs.invitations.waiting i hi hpending w hw hid
  have hstatus : w.status ≠ .active := (hclosed w hfound).resolve_right fun hne ↦
    hne (by rw [← hinvitee]; exact hnone)
  obtain ⟨e, he, hlt⟩ := hnow
  simp [TeamControlPlane.strands, find_of_firstWith hfirst, hpending, hinvitee, he, hlt, hfound,
    hstatus]

/-- Every admissible call keeps the invariant. -/
theorem consistent_of_step (hok : Admissible codec h action) (hs : Consistent h)
    (hstep : Step codec h action h') : Consistent h' := by
  obtain ⟨reply, heffect, hlog⟩ := hstep.effect
  obtain ⟨hfresh, hstrands⟩ := hok
  generalize hplane : h'.plane = t at heffect
  generalize action.call = call at heffect hlog hstrands
  have hsame : ∀ (w : WorkspaceRecord), w ∈ h.plane.registry → ∀ m,
      w.activeMember m = none → w.activeMember m = none := fun _ _ _ hnone ↦ hnone
  cases heffect with
  | rejected =>
      have hquiet : h.plane.observe action.occasion.host action.tree call none = [] := by
        cases call <;> rfl
      rw [hquiet, List.append_nil] at hlog
      have heq : h' = h := by
        cases h'
        cases h
        simp_all
      rw [heq]
      exact hs
  | created request =>
      refine hs.create (w := TeamControlPlane.created codec action.occasion request)
        (fun x hx ↦ hfresh.1 x hx) rfl rfl rfl (by rw [hplane]) (by rw [hplane]) hlog
  | @invited workspaceId actor invitee role ttlSeconds w inviter i hrole hw hinviter _ hallows
      hnone hother hid hws hinvitee hirole _ hpending =>
      obtain ⟨hmem, hwid⟩ := mem_of_workspace hw
      have hobserve : h.plane.observe action.occasion.host action.tree
          (.invite workspaceId actor invitee role ttlSeconds) (some (.invitation i)) =
            [.invited i inviter.role] := by
        simp [TeamControlPlane.observe, hw, hinviter]
      rw [hobserve] at hlog
      have hbelow : i.role ≤ inviter.role := by
        have hadmin : MemberRole.admin ≤ inviter.role := by
          simpa [MemberRole.allows] using hallows
        rw [hirole]
        revert hrole hadmin
        cases role <;> cases inviter.role <;> decide
      exact hs.invite (fun j hj ↦ by rw [hid]; exact hfresh.2 j hj) hmem (hwid.trans hws.symm)
        (by rw [hirole]; exact hrole) hbelow (by rw [hinvitee]; exact hnone) hpending
        (by rw [hws, hinvitee]; exact hother) (by rw [hplane]) (by rw [hplane]) hlog
  | expired hfirst hpending =>
      exact hs.settle "expired" hfirst.split hpending (by decide) (by decide) (by rw [hplane])
        (by rw [hplane]) (by rw [hlog]; exact List.append_nil _)
  | stranded hfirst hpending hinvitee hclosed hnow =>
      rw [strands_of_stranded hs hfirst hpending hinvitee hclosed hnow] at hstrands
      cases hstrands
  | @joined invitationId acceptor pre post i before after w member hfirst hpending hinvitee
      hrow _ hnone hid hrole =>
      have hobserve : h.plane.observe action.occasion.host action.tree
          (.acceptInvitation invitationId acceptor) (some (.member member)) =
            [.joined i.invitationId i.workspaceId member.memberId member.role] := by
        simp [TeamControlPlane.observe, find_of_firstWith hfirst, hfirst.found]
      rw [hobserve] at hlog
      exact hs.join hfirst.split hpending hrow.split hrow.found
        (by rw [hinvitee]; exact hnone) (hid.trans hinvitee.symm) hrole (by rw [hplane])
        (by rw [hplane]) hlog
  | revoked hfirst hpending =>
      exact hs.settle "revoked" hfirst.split hpending (by decide) (by decide) (by rw [hplane])
        (by rw [hplane]) (by rw [hlog]; exact List.append_nil _)
  | @closed call workspaceId memberId member before after w pre post stamp hcall hrow hmembers _
      hid hactive hrole =>
      have hw : w ∈ h.plane.registry := by simp [hrow.split]
      have hquiet : Quiet (h.plane.observe action.occasion.host action.tree call
          (some (.member { member with removedAt := some stamp }))) := by
        rcases hcall with ⟨actor, rfl⟩ | rfl <;> intro e he <;>
          exact .inl ⟨workspaceId, member.memberId, by simpa [TeamControlPlane.observe] using he⟩
      exact hs.replace
        { w with members := pre ++ { member with removedAt := some stamp } :: post } hrow.split rfl
        ((hs.sound w hw).close stamp hmembers hrole)
        (fun m ↦ WorkspaceRecord.activeMember_close stamp hmembers) hquiet (by rw [hplane])
        (by rw [hplane]) hlog
  | @marked workspaceId actor before after w member hrow =>
      have hw : w ∈ h.plane.registry := by simp [hrow.split]
      exact hs.replace { w with status := .deleting } hrow.split rfl
        ((hs.sound w hw).congr rfl rfl) (fun m ↦ hsame w hw m)
        (fun e he ↦ by simp [TeamControlPlane.observe] at he) (by rw [hplane]) (by rw [hplane])
        hlog
  | @destroyed workspaceId actor before after w w' deletedAt receipt hrow _ heq =>
      have hw : w ∈ h.plane.registry := by simp [hrow.split]
      have hquiet : Quiet (h.plane.observe action.occasion.host action.tree
          (.confirmDelete workspaceId actor workspaceId) (some (.workspace w'))) := by
        intro e he
        simp only [TeamControlPlane.observe] at he
        split at he
        · exact .inr ⟨workspaceId, List.mem_singleton.mp he⟩
        · cases he
      exact hs.replace w' hrow.split (by rw [heq]) ((hs.sound w hw).congr (by rw [heq]) (by rw [heq]))
        (fun m ↦ by rw [heq]; exact hsame w hw m) hquiet (by rw [hplane]) (by rw [hplane]) hlog

/-- What one call makes of the members of a workspace. -/
inductive MembersStep (events : List TeamEvent) (w w' : WorkspaceRecord) : Prop where
  | kept : w'.members.length = w.members.length →
      (∀ m, w.activeMember m = none → w'.activeMember m = none) → MembersStep events w w'
  | joined (invitationId : String) (role : MemberRole) (member : MemberRecord) :
      w.status = .active → w' = { w with members := w.members ++ [member] } →
      .joined invitationId w.workspaceId member.memberId role ∈ events → MembersStep events w w'

theorem membersStep_of_effect (host : Host) (tree : FileTree Char) {occasion : Occasion}
    {call : TeamCall} {t : TeamControlPlane} {reply : Option TeamReply} {w w' : WorkspaceRecord}
    (hs : Consistent h) (hfresh : ∀ v ∈ h.plane.registry, v.workspaceId ≠ occasion.newId)
    (heffect : TeamEffect codec occasion h.plane call t reply) (hw : w ∈ h.plane.registry) (hw' : w' ∈ t.registry) (hid : w'.workspaceId = w.workspaceId) :
    MembersStep (h.plane.observe host tree call reply) w w' := by
  have hkept : w' ∈ h.plane.registry →
      MembersStep (h.plane.observe host tree call reply) w w' := by
    intro hmem
    obtain rfl := Registry.eq_of_key hs.ids hmem hw hid
    exact .kept rfl fun _ hnone ↦ hnone
  -- the row is the changed one, or it was there before
  have hchanged : ∀ {id : String} {before after : List WorkspaceRecord}
      {v v' : WorkspaceRecord},
      FirstWith WorkspaceRecord.workspaceId id h.plane.registry before v after →
      w' ∈ before ++ v' :: after → v'.workspaceId = v.workspaceId →
      w' ∈ h.plane.registry ∨ (w' = v' ∧ w = v) := by
    intro id before after v v' hrow hmem hv
    rcases Registry.mem_replaced hs.ids hrow.split hmem with rfl | hmem
    · have hin : v ∈ h.plane.registry := by simp [hrow.split]
      exact .inr ⟨rfl, Registry.eq_of_key hs.ids hw hin (hid.symm.trans hv)⟩
    · exact .inl hmem.1
  cases heffect with
  | rejected => exact hkept hw'
  | created request =>
      rcases List.mem_append.mp hw' with hw' | hw'
      · exact hkept hw'
      · rw [List.mem_singleton.mp hw'] at hid
        exact absurd hid.symm (hfresh w hw)
  | invited => exact hkept hw'
  | expired => exact hkept hw'
  | stranded => exact hkept hw'
  | @joined invitationId acceptor pre post i before after v member hfirst _ _ hrow hstatus =>
      rcases hchanged hrow hw' rfl with hmem | ⟨rfl, rfl⟩
      · exact hkept hmem
      · refine .joined invitationId member.role member hstatus rfl ?_
        simp [TeamControlPlane.observe, find_of_firstWith hfirst, hrow.found]
  | revoked => exact hkept hw'
  | @closed call workspaceId memberId member before after v pre post stamp _ hrow hmembers =>
      rcases hchanged hrow hw' rfl with hmem | ⟨rfl, rfl⟩
      · exact hkept hmem
      · refine .kept ?_ fun m ↦ WorkspaceRecord.activeMember_close stamp hmembers
        simp [hmembers]
  | marked hrow =>
      rcases hchanged hrow hw' rfl with hmem | ⟨rfl, rfl⟩
      · exact hkept hmem
      · exact .kept rfl fun _ hnone ↦ hnone
  | destroyed deletedAt receipt hrow _ heq =>
      rcases hchanged hrow hw' (by rw [heq]) with hmem | ⟨rfl, rfl⟩
      · exact hkept hmem
      · rw [heq]
        exact .kept rfl fun _ hnone ↦ hnone

theorem grows_ids (heffect : TeamEffect codec action.occasion h.plane action.call h'.plane reply)
    {w : WorkspaceRecord} (hw : w ∈ h.plane.registry) :
    ∃ w' ∈ h'.plane.registry, w'.workspaceId = w.workspaceId := by
  generalize h'.plane = t at heffect
  generalize action.call = call at heffect
  cases heffect with
  | rejected => exact ⟨w, hw, rfl⟩
  | created => exact ⟨w, List.mem_append_left _ hw, rfl⟩
  | invited => exact ⟨w, hw, rfl⟩
  | expired => exact ⟨w, hw, rfl⟩
  | stranded => exact ⟨w, hw, rfl⟩
  | joined member _ _ _ hrow =>
      exact Registry.exists_replaced WorkspaceRecord.workspaceId _ hrow.split rfl hw
  | revoked => exact ⟨w, hw, rfl⟩
  | closed stamp _ hrow =>
      exact Registry.exists_replaced WorkspaceRecord.workspaceId _ hrow.split rfl hw
  | marked hrow => exact Registry.exists_replaced WorkspaceRecord.workspaceId _ hrow.split rfl hw
  | destroyed deletedAt receipt hrow _ heq =>
      exact Registry.exists_replaced WorkspaceRecord.workspaceId _ hrow.split (by rw [heq]) hw

/-! ## The records of the members -/

/-- Who joined a workspace, in the order of the acceptances. -/
def joinedIn (log : List TeamEvent) (workspaceId : String) : List (String × MemberRole) :=
  log.filterMap fun
    | .joined _ workspace memberId role =>
        if workspace = workspaceId then some (memberId, role) else none
    | _ => none

/-- The invitations that were accepted. -/
def acceptances (log : List TeamEvent) : List String :=
  log.filterMap fun
    | .joined invitationId _ _ _ => some invitationId
    | _ => none

theorem joinedIn_append (log log' : List TeamEvent) (workspaceId : String) :
    joinedIn (log ++ log') workspaceId = joinedIn log workspaceId ++ joinedIn log' workspaceId :=
  List.filterMap_append

theorem acceptances_append (log log' : List TeamEvent) :
    acceptances (log ++ log') = acceptances log ++ acceptances log' :=
  List.filterMap_append

theorem exists_of_mem_joinedIn {log : List TeamEvent} {workspaceId : String}
    {m : String × MemberRole} (hm : m ∈ joinedIn log workspaceId) :
    ∃ id, .joined id workspaceId m.1 m.2 ∈ log := by
  obtain ⟨event, hevent, hsome⟩ := List.mem_filterMap.mp hm
  cases event with
  | joined id workspace memberId role =>
      obtain ⟨rfl, rfl⟩ : workspace = workspaceId ∧ (memberId, role) = m := by simpa using hsome
      exact ⟨id, hevent⟩
  | created => cases hsome
  | invited => cases hsome
  | left => cases hsome
  | filesRemoved => cases hsome

theorem exists_of_mem_acceptances {log : List TeamEvent} {id : String}
    (hid : id ∈ acceptances log) : ∃ workspaceId m role, .joined id workspaceId m role ∈ log := by
  obtain ⟨event, hevent, hsome⟩ := List.mem_filterMap.mp hid
  cases event with
  | joined invitationId workspaceId memberId role =>
      obtain rfl : invitationId = id := by simpa using hsome
      exact ⟨workspaceId, memberId, role, hevent⟩
  | created => cases hsome
  | invited => cases hsome
  | left => cases hsome
  | filesRemoved => cases hsome

/-- The members of a workspace as they were recorded, removed ones included. -/
def recordsOf (w : WorkspaceRecord) : List (String × MemberRole) :=
  w.members.map fun m ↦ (m.memberId, m.role)

/-- A workspace holds the record of its creator and one of each acceptance. -/
structure Recorded (h : TeamHistory) : Prop where
  members : ∀ w ∈ h.plane.registry, ∃ owner, .created w.workspaceId owner ∈ h.log ∧
    recordsOf w = (owner, .owner) :: joinedIn h.log w.workspaceId
  once : (acceptances h.log).Nodup

/-- A call without an acceptance, which leaves the records as they are. -/
theorem Recorded.mono {events : List TeamEvent} (hr : Recorded h)
    (hrows : ∀ w' ∈ h'.plane.registry, ∃ w ∈ h.plane.registry,
      w'.workspaceId = w.workspaceId ∧ recordsOf w' = recordsOf w)
    (hlog : h'.log = h.log ++ events) (hnone : acceptances events = [])
    (hnobody : ∀ workspaceId, joinedIn events workspaceId = []) : Recorded h' where
  members w' hw' := by
    obtain ⟨w, hw, hid, hrecords⟩ := hrows w' hw'
    obtain ⟨owner, hcreated, hmembers⟩ := hr.members w hw
    refine ⟨owner, ?_, ?_⟩
    · rw [hid, hlog]
      exact List.mem_append_left _ hcreated
    · rw [hrecords, hmembers, hid, hlog, joinedIn_append, hnobody, List.append_nil]
  once := by
    rw [hlog, acceptances_append, hnone, List.append_nil]
    exact hr.once

/-- Nobody has joined a workspace that is not there. -/
theorem joinedIn_of_absent (hs : Consistent h) {id : String}
    (hfresh : ∀ w ∈ h.plane.registry, w.workspaceId ≠ id) : joinedIn h.log id = [] := by
  rw [List.eq_nil_iff_forall_not_mem]
  intro m hm
  obtain ⟨invitationId, hjoined⟩ := exists_of_mem_joinedIn hm
  obtain ⟨i, hi, hterms⟩ := hs.invitations.known _ _ _ _ hjoined
  obtain ⟨w, hw, hplaced⟩ := hs.invitations.placed i hi
  exact hfresh w hw (hplaced.trans (congrArg (fun t ↦ t.2.1) hterms))

/-- A pending invitation was not accepted. -/
theorem notMem_acceptances (hs : Consistent h) {i : Invitation} (hi : i ∈ h.plane.invitations)
    (hpending : i.state = "pending") : i.invitationId ∉ acceptances h.log := by
  intro hmem
  obtain ⟨workspaceId, m, role, hjoined⟩ := exists_of_mem_acceptances hmem
  obtain ⟨j, hj, hterms⟩ := hs.invitations.known _ _ _ _ hjoined
  obtain rfl := Registry.eq_of_key hs.invitations.ids hj hi (congrArg Prod.fst hterms)
  obtain ⟨-, rfl, rfl, rfl⟩ :
      j.invitationId = j.invitationId ∧ j.workspaceId = workspaceId ∧ j.invitee = m ∧
        j.role = role := by
    simpa [Invitation.terms] using hterms
  have haccepted := (hs.invitations.accepted j hj).mpr hjoined
  rw [hpending] at haccepted
  exact absurd haccepted (by decide)

theorem recorded_opened : Recorded opened :=
  ⟨by simp [opened], by simp [opened, acceptances]⟩

/-- Every admissible call keeps the records. -/
theorem recorded_of_step (hok : Admissible codec h action) (hs : Consistent h)
    (hr : Recorded h) (hstep : Step codec h action h') : Recorded h' := by
  obtain ⟨reply, heffect, hlog⟩ := hstep.effect
  have hfresh := hok.1.1
  generalize hplane : h'.plane = t at heffect
  generalize action.call = call at heffect hlog
  have hsame : ∀ {registry : List WorkspaceRecord}, registry = h.plane.registry →
      ∀ w' ∈ registry, ∃ w ∈ h.plane.registry,
        w'.workspaceId = w.workspaceId ∧ recordsOf w' = recordsOf w := by
    rintro registry rfl w hw
    exact ⟨w, hw, rfl, rfl⟩
  -- one row is replaced by one with the same records
  have hrow : ∀ {id : String} {before after : List WorkspaceRecord} {w w' : WorkspaceRecord},
      FirstWith WorkspaceRecord.workspaceId id h.plane.registry before w after →
      w'.workspaceId = w.workspaceId → recordsOf w' = recordsOf w →
      ∀ x ∈ before ++ w' :: after, ∃ y ∈ h.plane.registry,
        x.workspaceId = y.workspaceId ∧ recordsOf x = recordsOf y := by
    intro id before after w w' hfirst hid hrecords x hx
    rcases Registry.mem_replaced hs.ids hfirst.split hx with rfl | hx
    · exact ⟨w, by simp [hfirst.split], hid, hrecords⟩
    · exact ⟨x, hx.1, rfl, rfl⟩
  cases heffect with
  | rejected =>
      have hquiet : h.plane.observe action.occasion.host action.tree call none = [] := by
        cases call <;> rfl
      rw [hquiet] at hlog
      exact hr.mono (by rw [hplane]; exact hsame rfl) hlog rfl fun _ ↦ rfl
  | created request =>
      refine ⟨fun w hw ↦ ?_, ?_⟩
      · rw [hplane] at hw
        rw [hlog, joinedIn_append]
        rcases List.mem_append.mp hw with hw | hw
        · obtain ⟨owner, hcreated, hmembers⟩ := hr.members w hw
          exact ⟨owner, List.mem_append_left _ hcreated, by rw [hmembers]; simp [joinedIn,
            TeamControlPlane.observe]⟩
        · obtain rfl := List.mem_singleton.mp hw
          refine ⟨request.ownerMemberId, by simp [TeamControlPlane.observe,
            TeamControlPlane.created], ?_⟩
          have hnobody : joinedIn h.log
              (TeamControlPlane.created codec action.occasion request).workspaceId = [] :=
            joinedIn_of_absent hs hfresh
          rw [hnobody]
          simp [joinedIn, TeamControlPlane.observe, recordsOf, TeamControlPlane.created]
      · rw [hlog, acceptances_append]
        simpa [acceptances, TeamControlPlane.observe] using hr.once
  | @invited workspaceId actor invitee role ttlSeconds w inviter i _ hw hinviter =>
      refine hr.mono (by rw [hplane]; exact hsame rfl) hlog ?_ fun _ ↦ ?_ <;>
        simp [TeamControlPlane.observe, hw, hinviter, acceptances, joinedIn]
  | expired =>
      exact hr.mono (by rw [hplane]; exact hsame rfl) hlog rfl fun _ ↦ rfl
  | stranded =>
      exact hr.mono (by rw [hplane]; exact hsame rfl) hlog rfl fun _ ↦ rfl
  | @joined invitationId acceptor pre post i before after w member hfirst hpending hinvitee hrow' _ _
      hid hrole =>
      have hobserve : h.plane.observe action.occasion.host action.tree
          (.acceptInvitation invitationId acceptor) (some (.member member)) =
            [.joined i.invitationId i.workspaceId member.memberId member.role] := by
        simp [TeamControlPlane.observe, find_of_firstWith hfirst, hfirst.found]
      rw [hobserve] at hlog
      refine ⟨fun x hx ↦ ?_, ?_⟩
      · rw [hplane] at hx
        rw [hlog, joinedIn_append]
        rcases Registry.mem_replaced hs.ids hrow'.split hx with rfl | ⟨hx, hne⟩
        · obtain ⟨owner, hcreated, hmembers⟩ := hr.members w (by simp [hrow'.split])
          refine ⟨owner, List.mem_append_left _ hcreated, ?_⟩
          rw [recordsOf, List.map_append]
          rw [recordsOf] at hmembers
          simp [hmembers, joinedIn, hrow'.found]
        · obtain ⟨owner, hcreated, hmembers⟩ := hr.members x hx
          refine ⟨owner, List.mem_append_left _ hcreated, ?_⟩
          have hother : ¬i.workspaceId = x.workspaceId := fun heq ↦
            hne (heq.symm.trans hrow'.found.symm)
          rw [hmembers]
          simp [joinedIn, hother]
      · have hnew := notMem_acceptances hs (i := i) (by simp [hfirst.split]) hpending
        rw [hlog, acceptances_append]
        exact List.nodup_append.mpr ⟨hr.once, List.nodup_singleton _, by
          intro a ha b hb
          obtain rfl : b = i.invitationId := by simpa [acceptances] using hb
          rintro rfl
          exact hnew ha⟩
  | revoked =>
      exact hr.mono (by rw [hplane]; exact hsame rfl) hlog rfl fun _ ↦ rfl
  | @closed call workspaceId memberId member before after w pre post stamp hcall hrow' hmembers =>
      refine hr.mono (by rw [hplane]; exact hrow hrow' rfl (by simp [recordsOf, hmembers])) hlog
        ?_ fun _ ↦ ?_ <;>
        rcases hcall with ⟨actor, rfl⟩ | rfl <;> rfl
  | marked hrow' =>
      exact hr.mono (by rw [hplane]; exact hrow hrow' rfl rfl) hlog rfl fun _ ↦ rfl
  | destroyed deletedAt receipt hrow' _ heq =>
      refine hr.mono (by rw [hplane]; exact hrow hrow' (by rw [heq]) (by rw [heq]; rfl)) hlog
        ?_ fun _ ↦ ?_ <;>
        rw [TeamControlPlane.observe] <;> split <;> rfl

/-- The rules of membership, in a state and over what may follow it. -/
structure MembershipSafe (codec : ControlCodec)
    (ok : TeamHistory → TeamAction → Prop) (h : TeamHistory) : Prop where
  oneRecord : ∀ w ∈ h.plane.registry, w.members.Pairwise fun m n ↦
    m.removedAt = none → n.removedAt = none → m.memberId ≠ n.memberId
  oneOwner : ∀ w ∈ h.plane.registry, ∃ owner,
    (∀ id, .created w.workspaceId id ∈ h.log ↔ id = owner) ∧
      (w.members.filter fun m ↦ m.role = .owner ∧ m.removedAt = none).map MemberRecord.memberId =
        [owner]
  ranked : ∀ w ∈ h.plane.registry, ∀ m ∈ w.members, m.role ≠ .owner →
    ∃ i inviterRole, WorkspaceRecord.Vouched h.log w.workspaceId m i inviterRole
  inviters : ∀ action h', ok h action → Step codec h action h' →
    ∀ i inviterRole, .invited i inviterRole ∈ h'.log → .invited i inviterRole ∉ h.log →
      ∃ w inviter, h.plane.workspace i.workspaceId = some w ∧
        w.activeMember i.invitedBy = some inviter ∧ inviter.role = inviterRole
  returns : ∀ h', Run (Step codec) ok h h' →
    ∀ w ∈ h.plane.registry, ∀ w' ∈ h'.plane.registry, w'.workspaceId = w.workspaceId →
      ∀ m, w.activeMember m = none → w'.activeMember m ≠ none →
        ∃ since invitationId role, h'.log = h.log ++ since ∧
          .joined invitationId w.workspaceId m role ∈ since
  closedDoor : ∀ action h', ok h action → Step codec h action h' →
    ∀ w ∈ h.plane.registry, w.status ≠ .active → ∀ w' ∈ h'.plane.registry,
      w'.workspaceId = w.workspaceId → w'.members.length = w.members.length
  accepted : ∀ i ∈ h.plane.invitations, i.state = "accepted" ↔
    .joined i.invitationId i.workspaceId i.invitee i.role ∈ h.log
  /-- The members of a workspace are its creator and those who joined it, in this order. -/
  recorded : ∀ w ∈ h.plane.registry, ∃ owner, .created w.workspaceId owner ∈ h.log ∧
    w.members.map (fun m ↦ (m.memberId, m.role)) =
      (owner, .owner) :: joinedIn h.log w.workspaceId
  /-- Every acceptance is of an invitation, and no invitation is accepted twice. -/
  matched : ∀ id workspaceId m role, .joined id workspaceId m role ∈ h.log →
    ∃ i ∈ h.plane.invitations, i.terms = (id, workspaceId, m, role)
  once : (acceptances h.log).Nodup
  failedAcceptance : ∀ action h' invitationId acceptor e, ok h action →
    Step codec h action h' → action.call = .acceptInvitation invitationId acceptor →
    (h.plane.apply codec action.occasion action.tree action.call).2 = .error e →
    h'.plane.registry = h.plane.registry ∧ (h'.plane.invitations = h.plane.invitations ∨
      ∃ pre i post, h.plane.invitations = pre ++ i :: post ∧ i.invitationId = invitationId ∧
        i.state = "pending" ∧
        (∃ e, codec.instant i.expiresAt = some e ∧ e ≤ action.occasion.now) ∧
        h'.plane.invitations = pre ++ { i with state := "expired" } :: post)

theorem inviters_of_step (hstep : Step codec h action h') {i : Invitation}
    {inviterRole : MemberRole} (hnew : .invited i inviterRole ∈ h'.log)
    (hold : .invited i inviterRole ∉ h.log) :
    ∃ w inviter, h.plane.workspace i.workspaceId = some w ∧
      w.activeMember i.invitedBy = some inviter ∧ inviter.role = inviterRole := by
  obtain ⟨reply, heffect, hlog⟩ := hstep.effect
  rw [hlog] at hnew
  have hadded := (List.mem_append.mp hnew).resolve_left hold
  generalize h'.plane = t at heffect
  generalize action.call = call at heffect hadded
  cases heffect with
  | @invited workspaceId actor invitee role ttlSeconds w inviter j _ hw hinviter _ _ _ _ _ hws _ _
      hby =>
      simp only [TeamControlPlane.observe, hw, hinviter, Option.bind_some, Option.map_some,
        Option.toList_some, List.mem_singleton, TeamEvent.invited.injEq] at hadded
      obtain ⟨rfl, rfl⟩ := hadded
      exact ⟨w, inviter, by rw [hws]; exact hw, by rw [hby]; exact hinviter, rfl⟩
  | rejected => cases call <;> simp [TeamControlPlane.observe] at hadded
  | closed stamp hcall =>
      rcases hcall with ⟨actor, rfl⟩ | rfl <;> simp [TeamControlPlane.observe] at hadded
  | created => simp [TeamControlPlane.observe] at hadded
  | expired => simp [TeamControlPlane.observe] at hadded
  | stranded => simp [TeamControlPlane.observe] at hadded
  | joined => simp [TeamControlPlane.observe] at hadded
  | revoked => simp [TeamControlPlane.observe] at hadded
  | marked => simp [TeamControlPlane.observe] at hadded
  | destroyed => simp [TeamControlPlane.observe] at hadded

theorem returns_of_run (hs : Consistent h)
    (hrun : Run (Step codec) (Admissible codec) h h') {w w' : WorkspaceRecord}
    (hw : w ∈ h.plane.registry) (hw' : w' ∈ h'.plane.registry)
    (hid : w'.workspaceId = w.workspaceId) {m : String} (hnone : w.activeMember m = none)
    (hsome : w'.activeMember m ≠ none) :
    ∃ since invitationId role, h'.log = h.log ++ since ∧
      .joined invitationId w.workspaceId m role ∈ since := by
  suffices hall : Consistent h' ∧ (∃ v ∈ h'.plane.registry, v.workspaceId = w.workspaceId) ∧
      ∃ since, h'.log = h.log ++ since ∧ ∀ v ∈ h'.plane.registry,
        v.workspaceId = w.workspaceId → v.activeMember m ≠ none →
        ∃ invitationId role, .joined invitationId w.workspaceId m role ∈ since by
    obtain ⟨-, -, since, hlog, hsince⟩ := hall
    obtain ⟨invitationId, role, hmem⟩ := hsince w' hw' hid hsome
    exact ⟨since, invitationId, role, hlog, hmem⟩
  clear hw' hid hsome
  induction hrun with
  | refl =>
      refine ⟨hs, ⟨w, hw, rfl⟩, [], (List.append_nil _).symm, fun v hv hvid hv' ↦ ?_⟩
      rw [Registry.eq_of_key hs.ids hv hw hvid] at hv'
      exact absurd hnone hv'
  | @tail u u' _ hlast ih =>
      obtain ⟨action, hok, hstep⟩ := hlast
      obtain ⟨hu, ⟨v, hv, hvid⟩, since, hlog, hsince⟩ := ih
      obtain ⟨reply, heffect, hlog'⟩ := hstep.effect
      obtain ⟨x, hx, hxid⟩ := grows_ids heffect hv
      refine ⟨consistent_of_step hok hu hstep, ⟨x, hx, hxid.trans hvid⟩,
        since ++ u.plane.observe action.occasion.host action.tree action.call reply,
        by rw [hlog', hlog, List.append_assoc], fun y hy hyid hactive ↦ ?_⟩
      by_cases hbefore : v.activeMember m = none
      · rcases membersStep_of_effect action.occasion.host action.tree hu hok.1.1 heffect hv hy
          (hyid.trans hvid.symm) with ⟨-, hkept⟩ | ⟨invitationId, role, member, -, rfl, hjoined⟩
        · exact absurd (hkept m hbefore) hactive
        · by_cases hm : m = member.memberId
          · refine ⟨invitationId, role, List.mem_append_right _ ?_⟩
            rw [hm, ← hvid]
            exact hjoined
          · exact absurd (WorkspaceRecord.activeMember_admit hbefore rfl hm) hactive
      · obtain ⟨invitationId, role, hjoined⟩ := hsince v hv hvid hbefore
        exact ⟨invitationId, role, List.mem_append_left _ hjoined⟩

theorem failedAcceptance_of_step (hs : Consistent h) (hok : Admissible codec h action)
    (hstep : Step codec h action h') {invitationId acceptor e : String}
    (hcall : action.call = .acceptInvitation invitationId acceptor)
    (herror : (h.plane.apply codec action.occasion action.tree action.call).2 = .error e) :
    h'.plane.registry = h.plane.registry ∧ (h'.plane.invitations = h.plane.invitations ∨
      ∃ pre i post, h.plane.invitations = pre ++ i :: post ∧ i.invitationId = invitationId ∧
        i.state = "pending" ∧
        (∃ e, codec.instant i.expiresAt = some e ∧ e ≤ action.occasion.now) ∧
        h'.plane.invitations = pre ++ { i with state := "expired" } :: post) := by
  have heffect : TeamEffect codec action.occasion h.plane action.call _ _ :=
    TeamControlPlane.effect_apply action.tree action.call
  have hplane : h'.plane = (h.plane.apply codec action.occasion action.tree
      action.call).1.1 := by
    rw [hstep]
    rfl
  have hstrands := hok.2
  rw [← hplane, herror] at heffect
  rw [hcall] at heffect hstrands
  generalize hgoal : h'.plane = t at heffect ⊢
  cases heffect with
  | rejected => exact ⟨rfl, .inl rfl⟩
  | expired hfirst hpending _ hpast =>
      exact ⟨rfl, .inr ⟨_, _, _, hfirst.split, hfirst.found, hpending, hpast, rfl⟩⟩
  | stranded hfirst hpending hinvitee hclosed hnow =>
      rw [strands_of_stranded hs hfirst hpending hinvitee hclosed hnow] at hstrands
      cases hstrands

/-- In every run of calls with new ids in which no invitation to a closed
workspace is accepted, the rules of membership hold in every state. -/
theorem membershipSafe_of_run
    (hrun : Run (Step codec) (Admissible codec) opened h) :
    MembershipSafe codec (Admissible codec) h := by
  obtain ⟨hs, hr⟩ : Consistent h ∧ Recorded h := by
    have hstep : ∀ u action v, Consistent u ∧ Recorded u → Admissible codec u action →
        Step codec u action v → Consistent v ∧ Recorded v := fun u action v hboth hok hstep ↦
      ⟨consistent_of_step hok hboth.1 hstep, recorded_of_step hok hboth.1 hboth.2 hstep⟩
    exact hrun.preserves hstep ⟨consistent_opened, recorded_opened⟩
  refine ⟨fun w hw ↦ (hs.sound w hw).oneRecord, fun w hw ↦ ?_,
    fun w hw ↦ (hs.sound w hw).vouched,
    fun _ _ _ hstep _ _ hnew hold ↦ inviters_of_step hstep hnew hold,
    fun _ hlater _ hw _ hw' hid _ hnone hsome ↦ returns_of_run hs hlater hw hw' hid hnone hsome,
    fun action h' hok hstep w hw hstatus w' hw' hid ↦ ?_, hs.invitations.accepted,
    hr.members, hs.invitations.known, hr.once,
    fun _ _ _ _ _ hok hstep hcall herror ↦ failedAcceptance_of_step hs hok hstep hcall herror⟩
  · obtain ⟨m, hcreated, hactive, howners⟩ := (hs.sound w hw).oneOwner
    refine ⟨m.memberId, fun id ↦ ⟨fun hid ↦ hs.creator _ _ _ hid hcreated, ?_⟩, ?_⟩
    · rintro rfl
      exact hcreated
    · have hboth : (w.members.filter fun m ↦ m.role = .owner ∧ m.removedAt = none) =
          (w.members.filter fun m ↦ m.role = .owner).filter fun m ↦ m.removedAt = none := by
        rw [List.filter_filter]
        simp [Bool.and_comm]
      rw [hboth, howners]
      simp [hactive]
  · obtain ⟨reply, heffect, -⟩ := hstep.effect
    rcases membersStep_of_effect action.occasion.host action.tree hs hok.1.1 heffect hw hw' hid
      with ⟨hlength, -⟩ | ⟨_, _, _, hopen, -, -⟩
    · exact hlength
    · exact absurd hopen hstatus

instance (h : TeamHistory) (action : TeamAction) : Decidable (h.FreshId action) :=
  inferInstanceAs (Decidable ((∀ w ∈ h.plane.registry, w.workspaceId ≠ action.occasion.newId) ∧
    ∀ i ∈ h.plane.invitations, i.invitationId ≠ action.occasion.newId))

instance (codec : ControlCodec) (h : TeamHistory) (action : TeamAction) :
    Decidable (h.Admissible codec action) :=
  inferInstanceAs (Decidable (_ ∧ _ = false))

/-- Alice makes a workspace and invites Bob to it. -/
def sampleInvitation : List TeamAction :=
  let disk : FileTree Char := ⟨[], [[]]⟩
  [ ⟨.createWorkspace ⟨"platform", "eu", "/team", "alice"⟩, ⟨0, "w1", .sample⟩, disk⟩,
    ⟨.invite "w1" "alice" "bob" .admin 60, ⟨1, "i1", .sample⟩, disk⟩ ]

/-- Bob accepts while the workspace is open. -/
def sampleMembership : List TeamAction :=
  sampleInvitation ++ [⟨.acceptInvitation "i1" "bob", ⟨2, "u2", .sample⟩, ⟨[], []⟩⟩]

/-- Bob accepts when the deletion of the workspace was asked for. -/
def sampleStranded : List TeamAction :=
  sampleInvitation ++
    [ ⟨.requestDelete "w1" "alice", ⟨2, "u2", .sample⟩, ⟨[], []⟩⟩,
      ⟨.acceptInvitation "i1" "bob", ⟨3, "u3", .sample⟩, ⟨[], []⟩⟩ ]

theorem membershipSafe_sample :
    MembershipSafe .sample (Admissible .sample)
      (sampleMembership.foldl (next .sample) opened) := by
  apply membershipSafe_of_run
  apply run_of_along
  exact ⟨by decide +kernel, by decide +kernel, by decide +kernel, trivial⟩

/-- An invitation to a workspace that waits for its deletion is left accepted
without a membership. -/
theorem membership_stranded :
    ¬∀ (codec : ControlCodec) (h : TeamHistory),
      Run (Step codec) FreshId opened h →
        MembershipSafe codec FreshId h := by
  intro hall
  let stranded := sampleStranded.foldl (next .sample) opened
  have hrun : Run (Step .sample) FreshId opened stranded :=
    run_of_along ⟨by decide +kernel, by decide +kernel, by decide +kernel, by decide +kernel,
      trivial⟩
  have hsafe := hall .sample stranded hrun
  obtain ⟨i, hi⟩ : ∃ i, stranded.plane.invitations[0]? = some i :=
    ⟨(stranded.plane.invitations[0]?).get (by decide +kernel), by simp⟩
  have hstate : (stranded.plane.invitations[0]?).map Invitation.state = some "accepted" := by
    decide +kernel
  rw [hi, Option.map_some, Option.some.injEq] at hstate
  have hjoined := (hsafe.accepted i (List.mem_of_getElem? hi)).mp hstate
  have hnone : stranded.log.all (fun event ↦ match event with
      | .joined _ _ _ _ => false
      | _ => true) = true := by
    decide +kernel
  have hfalse := List.all_eq_true.mp hnone _ hjoined
  cases hfalse

end TeamHistory

end Cortana
