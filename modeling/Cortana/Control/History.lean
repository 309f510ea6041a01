import Cortana.Control.Team
import Cortana.Core.Runs

/-!
# What a call on a control plane can do

Every call of the team control plane is inverted once: the change it makes to
the two lists, with the checks that let it through.  A history keeps beside the
control plane what the calls so far have done.
-/

namespace Cortana

open Pathname

/-! ## Effects of team calls -/

namespace TeamControlPlane

variable {codec : ControlCodec} {occasion : Occasion}

theorem update_eq_ok {β : Type} {s t : TeamControlPlane} {workspaceId : String}
    {change : WorkspaceRecord → Except String (WorkspaceRecord × β)} {b : β} :
    s.update workspaceId change = .ok (t, b) ↔
      ∃ pre w post w', s.registry = pre ++ w :: post ∧
        (∀ x ∈ pre, (x.workspaceId == workspaceId) = false) ∧ w.workspaceId = workspaceId ∧
        change w = .ok (w', b) ∧ t = { s with registry := pre ++ w' :: post } := by
  rw [update, Except.map_ok_iff]
  constructor
  · rintro ⟨⟨l, c⟩, hupdate, heq⟩
    obtain ⟨rfl, rfl⟩ := Prod.mk.inj heq
    obtain ⟨pre, w, post, w', hsplit, hpre, hw, hchange, rfl⟩ :=
      Iff.mp Registry.updateFirst_eq_ok hupdate
    exact ⟨pre, w, post, w', hsplit, hpre, by simpa using hw, hchange, rfl⟩
  · rintro ⟨pre, w, post, w', hsplit, hpre, hw, hchange, rfl⟩
    refine ⟨(pre ++ w' :: post, b), Iff.mpr Registry.updateFirst_eq_ok ?_, rfl⟩
    exact ⟨pre, w, post, w', hsplit, hpre, by simpa using hw, hchange, rfl⟩

theorem updateInvitation_eq_ok {β : Type} {s t : TeamControlPlane} {invitationId : String}
    {change : Invitation → Except String (Invitation × β)} {b : β} :
    s.updateInvitation invitationId change = .ok (t, b) ↔
      ∃ pre i post i', s.invitations = pre ++ i :: post ∧
        (∀ x ∈ pre, (x.invitationId == invitationId) = false) ∧ i.invitationId = invitationId ∧
        change i = .ok (i', b) ∧ t = { s with invitations := pre ++ i' :: post } := by
  rw [updateInvitation, Except.map_ok_iff]
  constructor
  · rintro ⟨⟨l, c⟩, hupdate, heq⟩
    obtain ⟨rfl, rfl⟩ := Prod.mk.inj heq
    obtain ⟨pre, i, post, i', hsplit, hpre, hi, hchange, rfl⟩ :=
      Iff.mp Registry.updateFirst_eq_ok hupdate
    exact ⟨pre, i, post, i', hsplit, hpre, by simpa using hi, hchange, rfl⟩
  · rintro ⟨pre, i, post, i', hsplit, hpre, hi, hchange, rfl⟩
    refine ⟨(pre ++ i' :: post, b), Iff.mpr Registry.updateFirst_eq_ok ?_, rfl⟩
    exact ⟨pre, i, post, i', hsplit, hpre, by simpa using hi, hchange, rfl⟩

end TeamControlPlane

/-- An allowed operation is one of an active member, and of the owner where
the workspace is not active. -/
theorem WorkspaceRecord.authorize_eq_ok {w : WorkspaceRecord} {memberId : String}
    {operation : AccessOperation} {role : MemberRole} :
    w.authorize memberId operation = .ok role ↔
      ∃ member, w.activeMember memberId = some member ∧ member.role = role ∧
        ((w.status = .active ∧ role.allows operation = true) ∨
          (w.status ≠ .active ∧ operation = .deleteWorkspace ∧ role = .owner)) := by
  rw [WorkspaceRecord.authorize]
  cases hactive : w.activeMember memberId with
  | none => simp
  | some member =>
      dsimp only
      constructor
      · intro h
        refine ⟨member, rfl, ?_⟩
        split at h
        · rename_i hstatus
          split at h
          · rename_i howner
            obtain rfl := Except.ok.inj h
            exact ⟨rfl, .inr ⟨hstatus, howner⟩⟩
          · cases h
        · rename_i hstatus
          split at h
          · rename_i hallows
            obtain rfl := Except.ok.inj h
            exact ⟨rfl, .inl ⟨not_not.mp hstatus, hallows⟩⟩
          · cases h
      · rintro ⟨m, hm, rfl, h⟩
        obtain rfl := Option.some.inj hm
        rcases h with ⟨hstatus, hallows⟩ | ⟨hstatus, howner⟩
        · rw [if_neg (not_not.mpr hstatus), if_pos hallows]
        · rw [if_pos hstatus, if_pos howner]

theorem WorkspaceRecord.activeMember_eq_none {w : WorkspaceRecord} {memberId : String} :
    w.activeMember memberId = none ↔
      ∀ m ∈ w.members, m.memberId = memberId → m.removedAt ≠ none := by
  rw [WorkspaceRecord.activeMember, List.find?_eq_none]
  simp only [MemberRecord.isActive, Bool.and_eq_true, beq_iff_eq, Option.isNone_iff_eq_none,
    not_and]

/-- A list of rows around the first one with an id. -/
structure FirstWith {ρ : Type*} (key : ρ → String) (id : String) (l pre : List ρ) (r : ρ)
    (post : List ρ) : Prop where
  split : l = pre ++ r :: post
  before : ∀ x ∈ pre, (key x == id) = false
  found : key r = id

/-- What a call may make of the control plane, and its answer where it
succeeds. -/
inductive TeamEffect (codec : ControlCodec) (occasion : Occasion) (s : TeamControlPlane) :
    TeamCall → TeamControlPlane → Option TeamReply → Prop where
  | rejected (call : TeamCall) : TeamEffect codec occasion s call s none
  | created (request : CreateWorkspaceRequest) : s.admits occasion.host request = .ok () →
      TeamEffect codec occasion s (.createWorkspace request)
        { s with registry := s.registry ++ [TeamControlPlane.created codec occasion request] }
        (some (.workspace (TeamControlPlane.created codec occasion request)))
  | invited {workspaceId actor invitee : String} {role : MemberRole} {ttlSeconds : ℤ}
      {w : WorkspaceRecord} {inviter : MemberRecord} (i : Invitation) : role ≠ .owner →
      s.workspace workspaceId = some w → w.activeMember actor = some inviter →
      w.status = .active → inviter.role.allows .invite = true →
      w.activeMember invitee = none →
      (∀ x ∈ s.invitations,
        ¬(x.workspaceId = workspaceId ∧ x.invitee = invitee ∧ x.state = "pending")) →
      i.invitationId = occasion.newId → i.workspaceId = workspaceId → i.invitee = invitee →
      i.role = role → i.invitedBy = actor → i.state = "pending" →
      TeamEffect codec occasion s (.invite workspaceId actor invitee role ttlSeconds)
        { s with invitations := s.invitations ++ [i] } (some (.invitation i))
  | expired {invitationId acceptor : String} {pre post : List Invitation} {i : Invitation} :
      FirstWith Invitation.invitationId invitationId s.invitations pre i post →
      i.state = "pending" → i.invitee = acceptor →
      (∃ e, codec.instant i.expiresAt = some e ∧ e ≤ occasion.now) →
      TeamEffect codec occasion s (.acceptInvitation invitationId acceptor)
        { s with invitations := pre ++ { i with state := "expired" } :: post } none
  | stranded {invitationId acceptor : String} {pre post : List Invitation} {i : Invitation} :
      FirstWith Invitation.invitationId invitationId s.invitations pre i post →
      i.state = "pending" → i.invitee = acceptor →
      (∀ w, s.workspace i.workspaceId = some w → w.status ≠ .active ∨
        w.activeMember acceptor ≠ none) →
      (∃ e, codec.instant i.expiresAt = some e ∧ occasion.now < e) →
      TeamEffect codec occasion s (.acceptInvitation invitationId acceptor)
        { s with invitations := pre ++ { i with state := "accepted" } :: post } none
  | joined {invitationId acceptor : String} {pre post : List Invitation} {i : Invitation}
      {before after : List WorkspaceRecord} {w : WorkspaceRecord} (member : MemberRecord) :
      FirstWith Invitation.invitationId invitationId s.invitations pre i post →
      i.state = "pending" → i.invitee = acceptor →
      FirstWith WorkspaceRecord.workspaceId i.workspaceId s.registry before w after →
      w.status = .active → w.activeMember acceptor = none →
      member.memberId = acceptor → member.role = i.role → member.removedAt = none →
      TeamEffect codec occasion s (.acceptInvitation invitationId acceptor)
        { s with
          invitations := pre ++ { i with state := "accepted" } :: post
          registry := before ++ { w with members := w.members ++ [member] } :: after }
        (some (.member member))
  | revoked {invitationId actor : String} {pre post : List Invitation} {i : Invitation} :
      FirstWith Invitation.invitationId invitationId s.invitations pre i post →
      i.state = "pending" →
      TeamEffect codec occasion s (.revokeInvitation invitationId actor)
        { s with invitations := pre ++ { i with state := "revoked" } :: post }
        (some (.invitation { i with state := "revoked" }))
  | closed {call : TeamCall} {workspaceId memberId : String} {member : MemberRecord}
      {before after : List WorkspaceRecord} {w : WorkspaceRecord} {pre post : List MemberRecord}
      (stamp : String) :
      (∃ actor, call = .removeMember workspaceId actor memberId) ∨
        call = .leave workspaceId memberId →
      FirstWith WorkspaceRecord.workspaceId workspaceId s.registry before w after →
      w.members = pre ++ member :: post → (∀ m ∈ pre, m.isActive memberId = false) →
      member.memberId = memberId → member.removedAt = none → member.role ≠ .owner →
      TeamEffect codec occasion s call
        { s with registry := before ++ { w with
            members := pre ++ { member with removedAt := some stamp } :: post } :: after }
        (some (.member { member with removedAt := some stamp }))
  | marked {workspaceId actor : String} {before after : List WorkspaceRecord}
      {w : WorkspaceRecord} {member : MemberRecord} :
      FirstWith WorkspaceRecord.workspaceId workspaceId s.registry before w after →
      w.activeMember actor = some member → member.role = .owner →
      TeamEffect codec occasion s (.requestDelete workspaceId actor)
        { s with registry := before ++ { w with status := .deleting } :: after }
        (some (.workspace { w with status := .deleting }))
  | destroyed {workspaceId actor : String} {before after : List WorkspaceRecord}
      {w w' : WorkspaceRecord} (deletedAt receipt : String) :
      FirstWith WorkspaceRecord.workspaceId workspaceId s.registry before w after →
      w.status = .deleting →
      w' = { w with
        status := .deleted, deletedAt := some deletedAt, purgeReceiptDigest := some receipt } →
      TeamEffect codec occasion s (.confirmDelete workspaceId actor workspaceId)
        { s with registry := before ++ w' :: after } (some (.workspace w'))

namespace TeamControlPlane

variable {codec : ControlCodec} {occasion : Occasion} {s : TeamControlPlane}
  {tree : FileTree Char}

theorem workspace_of_firstWith {workspaceId : String} {before after : List WorkspaceRecord}
    {w : WorkspaceRecord}
    (h : FirstWith WorkspaceRecord.workspaceId workspaceId s.registry before w after) :
    s.workspace workspaceId = some w := by
  rw [workspace, h.split]
  exact Registry.find?_of_split h.before (by simp [h.found])

theorem effect_invite {workspaceId actor invitee : String} {role : MemberRole} {ttlSeconds : ℤ}
    {t : TeamControlPlane} {i : Invitation}
    (h : s.invite codec occasion workspaceId actor invitee role ttlSeconds = .ok (t, i)) :
    TeamEffect codec occasion s (.invite workspaceId actor invitee role ttlSeconds) t
      (some (.invitation i)) := by
  obtain ⟨_, hrole, h⟩ := Iff.mp Except.bind_ok_iff h
  obtain ⟨w, hw, h⟩ := Iff.mp Except.bind_ok_iff h
  obtain ⟨actorRole, hauthorize, h⟩ := Iff.mp Except.bind_ok_iff h
  obtain ⟨_, hinvitee, h⟩ := Iff.mp Except.bind_ok_iff h
  obtain ⟨_, hpending, h⟩ := Iff.mp Except.bind_ok_iff h
  obtain ⟨rfl, rfl⟩ := Prod.mk.inj (Iff.mp Except.pure_ok_iff h)
  obtain ⟨inviter, hinviter, rfl, hrights⟩ := Iff.mp WorkspaceRecord.authorize_eq_ok hauthorize
  have hfound : s.workspace workspaceId = some w := by
    cases hcase : s.workspace workspaceId with
    | none =>
        rw [hcase] at hw
        cases hw
    | some x =>
        rw [hcase] at hw
        rw [Except.ok.inj hw]
  rcases hrights with ⟨hstatus, hallows⟩ | ⟨-, hop, -⟩
  · exact .invited _ (Iff.mp Except.require_ok_iff hrole) hfound hinviter hstatus hallows
      (Iff.mp Except.require_ok_iff hinvitee) (Iff.mp Except.require_ok_iff hpending) rfl rfl rfl rfl rfl
      rfl
  · cases hop

theorem takeInvitation_eq_ok {acceptor : String} {i i' taken : Invitation} {expired : Bool} :
    takeInvitation codec occasion acceptor i = .ok (i', (taken, expired)) ↔
      i.state = "pending" ∧ i.invitee = acceptor ∧ i' = taken ∧
        (∃ e, codec.instant i.expiresAt = some e ∧ expired = decide (e ≤ occasion.now)) ∧
        taken = { i with state := if expired then "expired" else "accepted" } := by
  constructor
  · intro h
    obtain ⟨_, hstate, h⟩ := Iff.mp Except.bind_ok_iff h
    obtain ⟨_, hinvitee, h⟩ := Iff.mp Except.bind_ok_iff h
    obtain ⟨e, he, h⟩ := Iff.mp Except.bind_ok_iff h
    have hpure := Iff.mp Except.pure_ok_iff h
    simp only [Prod.mk.injEq] at hpure
    obtain ⟨rfl, rfl, rfl⟩ := hpure
    have hinstant : codec.instant i.expiresAt = some e := by
      cases hcase : codec.instant i.expiresAt with
      | none =>
          rw [hcase] at he
          cases he
      | some x =>
          rw [hcase] at he
          rw [Except.ok.inj he]
    exact ⟨Iff.mp Except.require_ok_iff hstate, Iff.mp Except.require_ok_iff hinvitee, rfl,
      ⟨e, hinstant, rfl⟩, rfl⟩
  · rintro ⟨hstate, hinvitee, rfl, ⟨e, he, rfl⟩, rfl⟩
    simp only [takeInvitation, Except.require, hstate, hinvitee, if_true, he]
    rfl

theorem effect_acceptInvitation (invitationId acceptor : String) :
    TeamEffect codec occasion s (.acceptInvitation invitationId acceptor)
      (s.acceptInvitation codec occasion invitationId acceptor).1
      ((s.acceptInvitation codec occasion invitationId acceptor).2.toOption.map .member) := by
  rw [acceptInvitation]
  split
  · exact .rejected _
  · rename_i saved taken expired hsaved
    obtain ⟨pre, i, post, i', hsplit, hpre, hi, htake, rfl⟩ := Iff.mp updateInvitation_eq_ok hsaved
    obtain ⟨hstate, hinvitee, rfl, ⟨e, he, hexpired⟩, htaken⟩ := Iff.mp takeInvitation_eq_ok htake
    have hfirst : FirstWith Invitation.invitationId invitationId s.invitations pre i post :=
      ⟨hsplit, hpre, hi⟩
    split
    · rename_i hyes
      rw [if_pos hyes] at htaken
      rw [htaken]
      exact .expired hfirst hstate hinvitee
        ⟨e, he, by rwa [hexpired, decide_eq_true_eq] at hyes⟩
    · rename_i hno
      rw [if_neg hno] at htaken
      have hnow : occasion.now < e := by
        rw [hexpired, decide_eq_true_eq] at hno
        exact not_le.mp hno
      have hworkspace : i'.workspaceId = i.workspaceId := by rw [htaken]
      have hrole : i'.role = i.role := by rw [htaken]
      split
      · rename_i e' herror
        rw [htaken]
        refine .stranded hfirst hstate hinvitee (fun w hw ↦ ?_) ⟨e, he, hnow⟩
        by_contra hopen
        simp only [not_or, not_not] at hopen
        obtain ⟨before, after, hbefore⟩ : ∃ before after,
            FirstWith WorkspaceRecord.workspaceId i.workspaceId s.registry before w after := by
          obtain ⟨hfound, before, after, hlist, hnone⟩ := List.find?_eq_some_iff_append.mp hw
          exact ⟨before, after, hlist, fun x hx ↦ by simpa using hnone x hx, by simpa using hfound⟩
        have hadmit : admitMember codec occasion acceptor i'.role w =
            .ok ({ w with members := w.members ++
              [⟨acceptor, i'.role, codec.rfc3339 occasion.now, none⟩] },
              ⟨acceptor, i'.role, codec.rfc3339 occasion.now, none⟩) := by
          simp only [admitMember, Except.require, hopen.1, hopen.2, if_true]
          rfl
        rw [hworkspace] at herror
        have hsame : ({ s with invitations := pre ++ i' :: post } : TeamControlPlane).update
            i.workspaceId (admitMember codec occasion acceptor i'.role) = .ok _ :=
          Iff.mpr update_eq_ok ⟨before, w, after, _, hbefore.split, hbefore.before, hbefore.found,
            hadmit, rfl⟩
        rw [hsame] at herror
        cases herror
      · rename_i joined member hjoined
        obtain ⟨before, w, after, w', hlist, hbefore, hfound, hadmit, rfl⟩ :=
          Iff.mp update_eq_ok hjoined
        obtain ⟨_, hactive, hadmit⟩ := Iff.mp Except.bind_ok_iff hadmit
        obtain ⟨_, hnone, hadmit⟩ := Iff.mp Except.bind_ok_iff hadmit
        obtain ⟨rfl, rfl⟩ := Prod.mk.inj (Iff.mp Except.pure_ok_iff hadmit)
        have heffect : TeamEffect codec occasion s (.acceptInvitation invitationId acceptor) _ _ :=
          TeamEffect.joined ⟨acceptor, i'.role, codec.rfc3339 occasion.now, none⟩ hfirst hstate hinvitee
          ⟨hlist, by rw [← hworkspace]; exact hbefore, by rw [← hworkspace]; exact hfound⟩
          (Iff.mp Except.require_ok_iff hactive) (Iff.mp Except.require_ok_iff hnone) rfl hrole rfl
        rw [← htaken] at heffect
        exact heffect

theorem effect_revokeInvitation {invitationId actor : String} {t : TeamControlPlane}
    {i' : Invitation} (h : s.revokeInvitation invitationId actor = .ok (t, i')) :
    TeamEffect codec occasion s (.revokeInvitation invitationId actor) t
      (some (.invitation i')) := by
  obtain ⟨pre, i, post, i₁, hsplit, hpre, hi, hchange, rfl⟩ := Iff.mp updateInvitation_eq_ok h
  obtain ⟨w, -, hchange⟩ := Iff.mp Except.bind_ok_iff hchange
  obtain ⟨_, -, hchange⟩ := Iff.mp Except.bind_ok_iff hchange
  obtain ⟨_, hstate, hchange⟩ := Iff.mp Except.bind_ok_iff hchange
  obtain ⟨rfl, rfl⟩ := Prod.mk.inj (Iff.mp Except.pure_ok_iff hchange)
  exact .revoked ⟨hsplit, hpre, hi⟩ (Iff.mp Except.require_ok_iff hstate)

theorem closeMember_eq_ok {memberId : String} {allowed : MemberRecord → Except String Unit}
    {w w' : WorkspaceRecord} {closed : MemberRecord}
    (h : closeMember codec occasion memberId allowed w = .ok (w', closed)) :
    ∃ pre member post, w.members = pre ++ member :: post ∧
      (∀ m ∈ pre, m.isActive memberId = false) ∧ member.memberId = memberId ∧
      member.removedAt = none ∧ allowed member = .ok () ∧
      closed = { member with removedAt := some (codec.rfc3339 occasion.now) } ∧
      w' = { w with members := pre ++ closed :: post } := by
  rw [closeMember, Except.map_ok_iff] at h
  obtain ⟨⟨l, c⟩, hupdate, heq⟩ := h
  obtain ⟨rfl, rfl⟩ := Prod.mk.inj heq
  obtain ⟨pre, member, post, m', hsplit, hpre, hactive, hchange, rfl⟩ :=
    Iff.mp Registry.updateFirst_eq_ok hupdate
  obtain ⟨_, hallowed, hchange⟩ := Iff.mp Except.bind_ok_iff hchange
  obtain ⟨rfl, rfl⟩ := Prod.mk.inj (Iff.mp Except.pure_ok_iff hchange)
  rw [MemberRecord.isActive, Bool.and_eq_true, beq_iff_eq, Option.isNone_iff_eq_none] at hactive
  exact ⟨pre, member, post, hsplit, hpre, hactive.1, hactive.2, hallowed, rfl, rfl⟩

theorem effect_removeMember {workspaceId actor target : String} {t : TeamControlPlane}
    {m : MemberRecord}
    (h : s.removeMember codec occasion workspaceId actor target = .ok (t, m)) :
    TeamEffect codec occasion s (.removeMember workspaceId actor target) t
      (some (.member m)) := by
  obtain ⟨before, w, after, w', hlist, hbefore, hfound, hchange, rfl⟩ := Iff.mp update_eq_ok h
  obtain ⟨actorRole, -, hclose⟩ := Iff.mp Except.bind_ok_iff hchange
  obtain ⟨pre, member, post, hmembers, hpre, hid, hactive, hallowed, rfl, rfl⟩ :=
    closeMember_eq_ok hclose
  obtain ⟨_, hrole, -⟩ := Iff.mp Except.bind_ok_iff hallowed
  exact .closed _ (.inl ⟨actor, rfl⟩) ⟨hlist, hbefore, hfound⟩ hmembers hpre hid hactive
    (Iff.mp Except.require_ok_iff hrole)

theorem effect_leave {workspaceId memberId : String} {t : TeamControlPlane} {m : MemberRecord}
    (h : s.leave codec occasion workspaceId memberId = .ok (t, m)) :
    TeamEffect codec occasion s (.leave workspaceId memberId) t (some (.member m)) := by
  obtain ⟨before, w, after, w', hlist, hbefore, hfound, hclose, rfl⟩ := Iff.mp update_eq_ok h
  obtain ⟨pre, member, post, hmembers, hpre, hid, hactive, hallowed, rfl, rfl⟩ :=
    closeMember_eq_ok hclose
  exact .closed _ (.inr rfl) ⟨hlist, hbefore, hfound⟩ hmembers hpre hid hactive
    (Iff.mp Except.require_ok_iff hallowed)

theorem effect_requestDelete {workspaceId actor : String} {t : TeamControlPlane}
    {w' : WorkspaceRecord} (h : s.requestDelete workspaceId actor = .ok (t, w')) :
    TeamEffect codec occasion s (.requestDelete workspaceId actor) t
      (some (.workspace w')) := by
  obtain ⟨before, w, after, w₁, hlist, hbefore, hfound, hchange, rfl⟩ := Iff.mp update_eq_ok h
  obtain ⟨role, hauthorize, hchange⟩ := Iff.mp Except.bind_ok_iff hchange
  obtain ⟨rfl, rfl⟩ := Prod.mk.inj (Iff.mp Except.pure_ok_iff hchange)
  obtain ⟨member, hmember, rfl, hrights⟩ := Iff.mp WorkspaceRecord.authorize_eq_ok hauthorize
  have howner : member.role = .owner := by
    rcases hrights with ⟨-, hallows⟩ | ⟨-, -, hrole⟩
    · simpa [MemberRole.allows] using hallows
    · exact hrole
  exact .marked ⟨hlist, hbefore, hfound⟩ hmember howner

theorem effect_confirmDelete {workspaceId actor confirmation : String} {t : TeamControlPlane}
    {w' : WorkspaceRecord}
    (h : s.confirmDelete codec occasion workspaceId actor confirmation = .ok (t, w')) :
    TeamEffect codec occasion s (.confirmDelete workspaceId actor confirmation) t
      (some (.workspace w')) := by
  obtain ⟨_, hconfirm, h⟩ := Iff.mp Except.bind_ok_iff h
  obtain rfl := Iff.mp Except.require_ok_iff hconfirm
  obtain ⟨before, w, after, w₁, hlist, hbefore, hfound, hchange, rfl⟩ := Iff.mp update_eq_ok h
  obtain ⟨_, -, hchange⟩ := Iff.mp Except.bind_ok_iff hchange
  obtain ⟨_, hstatus, hchange⟩ := Iff.mp Except.bind_ok_iff hchange
  obtain ⟨rfl, rfl⟩ := Prod.mk.inj (Iff.mp Except.pure_ok_iff hchange)
  exact .destroyed _ _ ⟨hlist, hbefore, hfound⟩ (Iff.mp Except.require_ok_iff hstatus) rfl

theorem effect_settled {β : Type} {call : TeamCall} {reply : β → TeamReply}
    {result : Except String (TeamControlPlane × β)}
    (h : ∀ t b, result = .ok (t, b) → TeamEffect codec occasion s call t (some (reply b))) :
    TeamEffect codec occasion s call (s.settled tree reply result).1.1
      (s.settled tree reply result).2.toOption := by
  cases result with
  | error e => exact .rejected call
  | ok out => exact h out.1 out.2 rfl

/-- Every call has one of the effects. -/
theorem effect_apply (tree : FileTree Char) (call : TeamCall) :
    TeamEffect codec occasion s call (s.apply codec occasion tree call).1.1
      (s.apply codec occasion tree call).2.toOption := by
  cases call with
  | createWorkspace request =>
      rw [apply, createWorkspace]
      split
      · exact .rejected _
      · rename_i hadmits
        split
        · exact .rejected _
        · split
          · exact .rejected _
          · exact .created request hadmits
  | invite workspaceId actor invitee role ttlSeconds => exact effect_settled fun _ _ ↦ effect_invite
  | acceptInvitation invitationId acceptor =>
      have heffect : TeamEffect codec occasion s (.acceptInvitation invitationId acceptor) _ _ :=
        effect_acceptInvitation invitationId acceptor
      rw [apply]
      cases hreply : (s.acceptInvitation codec occasion invitationId acceptor).2 with
      | error e =>
          rw [hreply] at heffect
          exact heffect
      | ok member =>
          rw [hreply] at heffect
          exact heffect
  | revokeInvitation invitationId actor => exact effect_settled fun _ _ ↦ effect_revokeInvitation
  | removeMember workspaceId actor target => exact effect_settled fun _ _ ↦ effect_removeMember
  | leave workspaceId memberId => exact effect_settled fun _ _ ↦ effect_leave
  | requestDelete workspaceId actor => exact effect_settled fun _ _ ↦ effect_requestDelete
  | confirmDelete workspaceId actor confirmation =>
      rw [apply]
      cases hresult : s.confirmDelete codec occasion workspaceId actor confirmation with
      | error e => exact .rejected _
      | ok out => exact effect_confirmDelete hresult

end TeamControlPlane

/-! ## Histories -/

/-- What has happened, in the order it did. -/
inductive TeamEvent where
  | created (workspaceId ownerId : String)
  | invited (invitation : Invitation) (inviterRole : MemberRole)
  | joined (invitationId workspaceId memberId : String) (role : MemberRole)
  | left (workspaceId memberId : String)
  | filesRemoved (workspaceId : String)
deriving DecidableEq

/-- What a successful call adds to the history. -/
def TeamControlPlane.observe (host : Host) (s : TeamControlPlane) (tree : FileTree Char) :
    TeamCall → Option TeamReply → List TeamEvent
  | .createWorkspace request, some (.workspace w) => [.created w.workspaceId request.ownerMemberId]
  | .invite workspaceId actor _ _ _, some (.invitation i) =>
      (((s.workspace workspaceId).bind fun w ↦ w.activeMember actor).map fun inviter ↦
        .invited i inviter.role).toList
  | .acceptInvitation invitationId _, some (.member m) =>
      ((s.invitations.find? fun i ↦ i.invitationId == invitationId).map fun i ↦
        .joined invitationId i.workspaceId m.memberId m.role).toList
  | .removeMember workspaceId _ _, some (.member m) => [.left workspaceId m.memberId]
  | .leave workspaceId _, some (.member m) => [.left workspaceId m.memberId]
  | .confirmDelete workspaceId _ _, some (.workspace w) =>
      if host.isDir tree w.storePath then [.filesRemoved workspaceId] else []
  | _, _ => []

/-- A control plane and what happened to it. -/
structure TeamHistory where
  plane : TeamControlPlane
  log : List TeamEvent

/-- A call, when it is made, and the disk it finds. -/
structure TeamAction where
  call : TeamCall
  occasion : Occasion
  tree : FileTree Char

namespace TeamHistory

variable (codec : ControlCodec)

/-- A control plane that was just opened on a new registry. -/
def opened : TeamHistory := ⟨⟨[], []⟩, []⟩

def next (h : TeamHistory) (action : TeamAction) : TeamHistory :=
  let out := h.plane.apply codec action.occasion action.tree action.call
  ⟨out.1.1, h.log ++ h.plane.observe action.occasion.host action.tree action.call out.2.toOption⟩

def Step (h : TeamHistory) (action : TeamAction) (h' : TeamHistory) : Prop :=
  h' = h.next codec action

theorem run_of_along {codec : ControlCodec} {h : TeamHistory}
    {ok : TeamHistory → TeamAction → Prop} {actions : List TeamAction}
    (hok : Transition.Along (next codec) ok h actions) :
    Transition.Run (Step codec) ok h (actions.foldl (next codec) h) := by
  have hstep : ∀ s event, Step codec s event (s.next codec event) := fun _ _ ↦ rfl
  exact Transition.Run.of_along hstep hok

theorem Step.effect {codec : ControlCodec} {h h' : TeamHistory}
    {action : TeamAction} (hstep : Step codec h action h') :
    ∃ reply, TeamEffect codec action.occasion h.plane action.call h'.plane reply ∧
      h'.log = h.log ++ h.plane.observe action.occasion.host action.tree action.call reply := by
  subst hstep
  exact ⟨_, TeamControlPlane.effect_apply action.tree action.call, rfl⟩

end TeamHistory

end Cortana
