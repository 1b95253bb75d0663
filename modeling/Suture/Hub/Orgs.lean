import Mathlib.Data.Prod.Lex
import Suture.Foundation.Program
import Suture.Foundation.Run
import Suture.Hub.Limits

/-!
# Organizations

Who belongs to an organization, and who decides on it. Ids are drawn by the caller, and the clock
counts seconds. Rows refer to rows that are there, as the database demands; no account and no
organization is ever deleted.
-/

namespace Suture.Hub.Orgs
set_option autoImplicit false
open Foundation Program

/-! ### The tables -/

abbrev MemberKey := String ×ₗ String

def memberKey (orgId userId : String) : MemberKey := toLex (orgId, userId)

theorem memberKey_inj {orgId userId orgId' userId' : String} :
    memberKey orgId userId = memberKey orgId' userId' ↔ orgId = orgId' ∧ userId = userId' := by
  rw [memberKey, memberKey, toLex_inj, Prod.mk.injEq]

structure Org where
  name : String
  displayName : String
  ownerId : String

structure OrgMember where
  role : String
  invitedBy : Option String
  joinedAt : Nat
deriving DecidableEq

structure OrgInvitation where
  orgId : String
  email : String
  role : String
  invitedBy : String
  createdAt : Nat
  acceptedAt : Option Nat
  expiresAt : Nat

/-- Accounts are filed by their address, which no two share. -/
structure OrgDb where
  accounts : SortedMap String String
  orgs : SortedMap String Org
  orgMembers : SortedMap MemberKey OrgMember
  orgInvitations : SortedMap String OrgInvitation
  now : Nat

def OrgDb.empty : OrgDb := ⟨.empty, .empty, .empty, .empty, 0⟩

def week : Nat := 7 * 24 * 60 * 60

/-- Neither accepted nor expired. -/
def OrgInvitation.IsOpen (now : Nat) (i : OrgInvitation) : Prop :=
  i.acceptedAt = none ∧ now < i.expiresAt

instance (now : Nat) : DecidablePred (OrgInvitation.IsOpen now) := fun i =>
  inferInstanceAs (Decidable (i.acceptedAt = none ∧ now < i.expiresAt))

namespace OrgDb

def isAccount (s : OrgDb) (userId : String) : Bool :=
  s.accounts.entries.any fun e => decide (e.2 = userId)

def roleOf (s : OrgDb) (orgId userId : String) : Option String :=
  (s.orgMembers.get (memberKey orgId userId)).map OrgMember.role

end OrgDb

def IsPrivileged (role : Option String) : Prop := role = some "admin" ∨ role = some "owner"

instance : DecidablePred IsPrivileged := fun role =>
  inferInstanceAs (Decidable (role = some "admin" ∨ role = some "owner"))

def adminRows (s : OrgDb) (orgId : String) : List (MemberKey × OrgMember) :=
  s.orgMembers.entries.filter fun e =>
    decide ((ofLex e.1).1 = orgId ∧ IsPrivileged (some e.2.role))

def adminCount (s : OrgDb) (orgId : String) : Nat := (adminRows s orgId).length

/-! ### The requests -/

inductive OrgError where
  | notFound (id : String)
  | notAdmin
  | notMember
  | lastAdmin
  | invitationNotFound
  | emailMismatch
  | alreadyMember
  | invalidRole (role : String)
  | db (e : String)
deriving DecidableEq

def OrgError.fmt : OrgError → String
  | .notFound id => "Organization not found: " ++ id
  | .notAdmin => "Not an admin of this organization"
  | .notMember => "Not a member of this organization"
  | .lastAdmin => "Cannot remove the last admin"
  | .invitationNotFound => "Invitation not found or expired"
  | .emailMismatch => "Email does not match invitation"
  | .alreadyMember => "Already a member of this organization"
  | .invalidRole role => "Invalid role: " ++ role
  | .db e => "Database error: " ++ e

def OrgError.status : OrgError → Nat
  | .notAdmin | .notMember => 403
  | .lastAdmin | .alreadyMember => 409
  | .notFound _ | .invitationNotFound => 404
  | .emailMismatch | .invalidRole _ => 400
  | .db _ => 500

def orgErrorResponse (e : OrgError) : Nat × String := (e.status, e.fmt)

abbrev Request := Program OrgDb OrgError

def foreignKeyFailed : String := "FOREIGN KEY constraint failed"

def uniqueFailed (column : String) : String := "UNIQUE constraint failed: " ++ column

def validRoles : List String := ["owner", "admin", "member", "viewer"]

structure CreateOrgRequest where
  name : String
  displayName : Option String

structure OrgInfo where
  orgId : String
  name : String
  displayName : String
  tier : String
  memberCount : Int
  isOwner : Bool

structure InviteResponse where
  status : String
  userId : Option String
  email : String

/-- The row of a new account; who registers and who logs in with another service gets one. -/
def insertAccount (email userId : String) : Program OrgDb String Unit := do
  let s ← read
  require (s.isAccount userId = false) (uniqueFailed "accounts.user_id")
  require (s.accounts.contains email = false) (uniqueFailed "accounts.email")
  modify fun s => { s with accounts := s.accounts.insert email userId }

/-- A row that the table does not take, for its key or its role, is passed over. -/
def insertMember (orgId userId : String) (m : OrgMember) : Request Unit := do
  let s ← read
  if s.orgMembers.contains (memberKey orgId userId) = true ∨ m.role ∉ validRoles then return
  require (s.orgs.contains orgId = true ∧ s.isAccount userId = true ∧
    m.invitedBy.all s.isAccount = true) (.db foreignKeyFailed)
  modify fun s => { s with orgMembers := s.orgMembers.insert (memberKey orgId userId) m }

section CreateOrg
variable (isAlphanumeric : Char → Bool)

def IsOrgName (name : String) : Prop :=
  2 ≤ name.utf8ByteSize ∧ name.utf8ByteSize ≤ 39 ∧
    name.toList.all (fun c => isAlphanumeric c || c == '-' || c == '_') = true

instance (name : String) : Decidable (IsOrgName isAlphanumeric name) :=
  inferInstanceAs (Decidable (_ ∧ _ ∧ _))

def createOrg (claims : Claims) (req : CreateOrgRequest) (orgId : String) :
    Program OrgDb (Nat × String) OrgInfo := do
  require (IsOrgName isAlphanumeric req.name)
    (400, "org name must be 2-39 alphanumeric characters (hyphens and underscores allowed)")
  let displayName := req.displayName.getD req.name
  let s ← read
  require (s.orgs.contains orgId = false ∧
    s.orgs.entries.all (fun e => decide (e.2.name ≠ req.name)) = true)
    (409, "organization name already taken")
  require (s.isAccount claims.sub = true) (500, foreignKeyFailed)
  modify fun s => { s with orgs := s.orgs.insert orgId ⟨req.name, displayName, claims.sub⟩ }
  -- what the second row refers to is there since the first
  require (s.orgMembers.contains (memberKey orgId claims.sub) = false)
    (500, uniqueFailed "org_members.org_id, org_members.user_id")
  modify fun s => { s with
    orgMembers := s.orgMembers.insert (memberKey orgId claims.sub) ⟨"owner", none, s.now⟩ }
  return ⟨orgId, req.name, displayName, "free", 1, true⟩

end CreateOrg

def checkOrgAdmin (claims : Claims) (orgId : String) : Request Unit := do
  let s ← read
  require (IsPrivileged (s.roleOf orgId claims.sub)) .notAdmin

def validateRole (role : String) : Request Unit := require (role ∈ validRoles) (.invalidRole role)

def inviteMember (claims : Claims) (orgId email role uuid : String) : Request InviteResponse := do
  checkOrgAdmin claims orgId
  validateRole role
  let s ← read
  match s.accounts.get email with
  | some userId => do
    require (s.orgMembers.contains (memberKey orgId userId) = false) .alreadyMember
    insertMember orgId userId ⟨role, some claims.sub, s.now⟩
    return ⟨"added", some userId, email⟩
  | none => do
    let inviteId := "inv_" ++ uuid
    require (s.orgInvitations.contains inviteId = false)
      (.db (uniqueFailed "org_invitations.invite_id"))
    require (s.orgs.contains orgId = true ∧ s.isAccount claims.sub = true) (.db foreignKeyFailed)
    let i : OrgInvitation := ⟨orgId, email, role, claims.sub, s.now, none, s.now + week⟩
    modify fun s => { s with orgInvitations := s.orgInvitations.insert inviteId i }
    return ⟨"invited", none, email⟩

def removeMember (claims : Claims) (orgId userId : String) : Request Unit := do
  checkOrgAdmin claims orgId
  let s ← read
  require (¬(IsPrivileged (s.roleOf orgId userId) ∧ adminCount s orgId ≤ 1)) .lastAdmin
  modify fun s => { s with orgMembers := s.orgMembers.erase (memberKey orgId userId) }

def updateMemberRole (claims : Claims) (orgId userId newRole : String) : Request Unit := do
  checkOrgAdmin claims orgId
  validateRole newRole
  let s ← read
  match s.orgMembers.get (memberKey orgId userId) with
  | none => fail (.notFound ("member " ++ userId ++ " not found in org " ++ orgId))
  | some m => modify fun s => { s with
      orgMembers := s.orgMembers.insert (memberKey orgId userId) { m with role := newRole } }

def acceptInvitation (claims : Claims) (inviteId : String) : Request Unit := do
  let s ← read
  match (s.orgInvitations.get inviteId).filter fun i => decide (i.IsOpen s.now) with
  | none => fail .invitationNotFound
  | some i => do
    require (i.email = claims.email) .emailMismatch
    insertMember i.orgId claims.sub ⟨i.role, none, s.now⟩
    modify fun s => { s with
      orgInvitations := s.orgInvitations.insert inviteId { i with acceptedAt := some s.now } }

inductive Event where
  | pass (seconds : Nat)
  | insertAccount (email userId : String)
  | createOrg (claims : Claims) (req : CreateOrgRequest) (orgId : String)
  | inviteMember (claims : Claims) (orgId email role uuid : String)
  | removeMember (claims : Claims) (orgId userId : String)
  | updateMemberRole (claims : Claims) (orgId userId newRole : String)
  | acceptInvitation (claims : Claims) (inviteId : String)

def Event.claims : Event → Option Claims
  | .pass _ | .insertAccount .. => none
  | .createOrg claims .. | .inviteMember claims .. | .removeMember claims ..
  | .updateMemberRole claims .. | .acceptInvitation claims _ => some claims

variable (isAlphanumeric : Char → Bool)

def OrgDb.next (s : OrgDb) : Event → OrgDb
  | .pass seconds => { s with now := s.now + seconds }
  | .insertAccount email userId => (insertAccount email userId s).2
  | .createOrg claims req orgId => (createOrg isAlphanumeric claims req orgId s).2
  | .inviteMember claims orgId email role uuid => (inviteMember claims orgId email role uuid s).2
  | .removeMember claims orgId userId => (removeMember claims orgId userId s).2
  | .updateMemberRole claims orgId userId newRole =>
    (updateMemberRole claims orgId userId newRole s).2
  | .acceptInvitation claims inviteId => (acceptInvitation claims inviteId s).2

/-- Claims are made out to an account, with its address. -/
def OrgDb.Genuine (s : OrgDb) (e : Event) : Prop :=
  ∀ claims ∈ e.claims, s.accounts.get claims.email = some claims.sub

instance (s : OrgDb) : DecidablePred s.Genuine := fun e =>
  inferInstanceAs (Decidable (∀ claims ∈ e.claims, _))

abbrev Leads : OrgDb → OrgDb → Prop := Run (OrgDb.next isAlphanumeric) OrgDb.Genuine

/-! ### What a request can do -/

namespace OrgDb

structure InvitationOk (s : OrgDb) (i : OrgInvitation) : Prop where
  org : s.orgs.contains i.orgId = true
  role : i.role ∈ validRoles
  expires : i.expiresAt = i.createdAt + week

structure Ok (s : OrgDb) : Prop where
  member : ∀ orgId userId m, s.orgMembers.get (memberKey orgId userId) = some m →
    s.orgs.contains orgId = true
  invitation : ∀ inviteId i, s.orgInvitations.get inviteId = some i → s.InvitationOk i
  account : ∀ {email email' userId}, s.accounts.get email = some userId →
    s.accounts.get email' = some userId → email = email'

/-- The rows after a row that is passed over where there is one. -/
def joined (s : OrgDb) (orgId userId role : String) : SortedMap MemberKey OrgMember :=
  if s.orgMembers.contains (memberKey orgId userId) = true then s.orgMembers
  else s.orgMembers.insert (memberKey orgId userId) ⟨role, none, s.now⟩

end OrgDb

inductive Effect (s : OrgDb) : Event → OrgDb → Prop where
  | nothing (e : Event) : Effect s e s
  | passed (seconds : Nat) : Effect s (.pass seconds) { s with now := s.now + seconds }
  | registered (email userId : String) (hid : ∀ e, s.accounts.get e ≠ some userId)
      (hemail : s.accounts.get email = none) :
      Effect s (.insertAccount email userId) { s with accounts := s.accounts.insert email userId }
  | created (claims : Claims) (req : CreateOrgRequest) (orgId : String) (org : Org)
      (hnew : s.orgs.contains orgId = false) :
      Effect s (.createOrg claims req orgId) { s with
        orgs := s.orgs.insert orgId org
        orgMembers := s.orgMembers.insert (memberKey orgId claims.sub) ⟨"owner", none, s.now⟩ }
  | added (claims : Claims) (orgId email role uuid userId : String)
      (hadmin : IsPrivileged (s.roleOf orgId claims.sub))
      (hemail : s.accounts.get email = some userId) (horg : s.orgs.contains orgId = true)
      (hnew : s.orgMembers.get (memberKey orgId userId) = none) :
      Effect s (.inviteMember claims orgId email role uuid) { s with
        orgMembers := s.orgMembers.insert (memberKey orgId userId) ⟨role, some claims.sub, s.now⟩ }
  | invited (claims : Claims) (orgId email role uuid : String)
      (hadmin : IsPrivileged (s.roleOf orgId claims.sub)) (hrole : role ∈ validRoles)
      (hnew : s.orgInvitations.get ("inv_" ++ uuid) = none) :
      Effect s (.inviteMember claims orgId email role uuid) { s with
        orgInvitations := s.orgInvitations.insert ("inv_" ++ uuid)
          ⟨orgId, email, role, claims.sub, s.now, none, s.now + week⟩ }
  | removed (claims : Claims) (orgId userId : String)
      (hguard : ¬(IsPrivileged (s.roleOf orgId userId) ∧ adminCount s orgId ≤ 1)) :
      Effect s (.removeMember claims orgId userId)
        { s with orgMembers := s.orgMembers.erase (memberKey orgId userId) }
  | updated (claims : Claims) (orgId userId newRole : String) (m : OrgMember)
      (hadmin : IsPrivileged (s.roleOf orgId claims.sub)) (hrole : newRole ∈ validRoles)
      (hmember : s.orgMembers.get (memberKey orgId userId) = some m) :
      Effect s (.updateMemberRole claims orgId userId newRole) { s with
        orgMembers := s.orgMembers.insert (memberKey orgId userId) { m with role := newRole } }
  | accepted (claims : Claims) (inviteId : String) (i : OrgInvitation)
      (hget : s.orgInvitations.get inviteId = some i) (hopen : i.IsOpen s.now)
      (hemail : i.email = claims.email) :
      Effect s (.acceptInvitation claims inviteId) { s with
        orgMembers := s.joined i.orgId claims.sub i.role
        orgInvitations := s.orgInvitations.insert inviteId { i with acceptedAt := some s.now } }

variable {isAlphanumeric} {s t : OrgDb}

/-- What is asked for holds, or the request ends here. -/
theorem require_cases {σ ε β : Type} {p : Prop} [Decidable p] {e : ε} {k : Unit → Program σ ε β}
    {s : σ} {P : σ → Prop} (hfail : P s) (hok : p → P (k () s).2) :
    P ((require p e >>= k) s).2 := by
  by_cases hp : p
  · rw [require_bind hp]
    exact hok hp
  · rw [require_bind_of_not hp]
    exact hfail

theorem checkOrgAdmin_bind {β : Type} (claims : Claims) (orgId : String) (k : Unit → Request β) :
    (checkOrgAdmin claims orgId >>= k) s =
      (require (IsPrivileged (s.roleOf orgId claims.sub)) .notAdmin >>= k) s := rfl

theorem effect_insertAccount (email userId : String) :
    Effect s (.insertAccount email userId) (insertAccount email userId s).2 := by
  refine require_cases (.nothing _) fun hid => require_cases (.nothing _) fun hemail => ?_
  refine .registered email userId (fun e he => ?_) (SortedMap.contains_eq_false_iff.mp hemail)
  have hmem := List.any_eq_false.mp hid (e, userId) (SortedMap.mem_entries.mpr he)
  exact hmem (decide_eq_true rfl)

theorem effect_createOrg (hs : s.Ok) (claims : Claims) (req : CreateOrgRequest) (orgId : String) :
    Effect s (.createOrg claims req orgId) (createOrg isAlphanumeric claims req orgId s).2 := by
  refine require_cases (.nothing _) fun _ => require_cases (.nothing _) fun hnew =>
    require_cases (.nothing _) fun _ => ?_
  have hfree : s.orgMembers.contains (memberKey orgId claims.sub) = false := by
    rw [SortedMap.contains_eq_false_iff]
    by_contra hget
    obtain ⟨m, hm⟩ := Option.ne_none_iff_exists'.mp hget
    rw [hs.member _ _ m hm] at hnew
    exact absurd hnew.1 (by decide)
  rw [modify_bind, require_bind hfree, modify_bind]
  exact .created claims req orgId _ hnew.1

theorem insertMember_run (orgId userId : String) (m : OrgMember) (s : OrgDb) :
    insertMember orgId userId m s = (.error (.db foreignKeyFailed), s) ∨
    (s.orgMembers.contains (memberKey orgId userId) = true ∨ m.role ∉ validRoles) ∧
      insertMember orgId userId m s = (.ok (), s) ∨
    s.orgMembers.get (memberKey orgId userId) = none ∧ s.orgs.contains orgId = true ∧
      insertMember orgId userId m s =
        (.ok (), { s with orgMembers := s.orgMembers.insert (memberKey orgId userId) m }) := by
  unfold insertMember
  rw [read_bind]
  split
  · rename_i hskip
    exact .inr (.inl ⟨hskip, rfl⟩)
  · rename_i hskip
    by_cases hrefs : s.orgs.contains orgId = true ∧ s.isAccount userId = true ∧
        m.invitedBy.all s.isAccount = true
    · have hfree := Bool.eq_false_iff.mpr fun h => hskip (.inl h)
      rw [require_bind hrefs]
      exact .inr (.inr ⟨SortedMap.contains_eq_false_iff.mp hfree, hrefs.1, rfl⟩)
    · rw [require_bind_of_not hrefs]
      exact .inl rfl

theorem effect_inviteMember (claims : Claims) (orgId email role uuid : String) :
    Effect s (.inviteMember claims orgId email role uuid)
      (inviteMember claims orgId email role uuid s).2 := by
  unfold inviteMember
  rw [checkOrgAdmin_bind]
  refine require_cases (.nothing _) fun hadmin => require_cases (.nothing _) fun hrole => ?_
  rw [read_bind]
  cases hemail : s.accounts.get email with
  | some userId =>
    refine require_cases (.nothing _) fun hnew => ?_
    rcases insertMember_run orgId userId ⟨role, some claims.sub, s.now⟩ s with
      hrun | ⟨-, hrun⟩ | ⟨hfree, horg, hrun⟩
    · rw [bind_of_error hrun]
      exact .nothing _
    · rw [bind_of_ok hrun]
      exact .nothing _
    · rw [bind_of_ok hrun]
      exact .added claims orgId email role uuid userId hadmin hemail horg hfree
  | none =>
    refine require_cases (.nothing _) fun hnew => require_cases (.nothing _) fun _ => ?_
    have hfree := SortedMap.contains_eq_false_iff.mp hnew
    exact .invited claims orgId email role uuid hadmin hrole hfree

theorem effect_removeMember (claims : Claims) (orgId userId : String) :
    Effect s (.removeMember claims orgId userId) (removeMember claims orgId userId s).2 := by
  unfold removeMember
  rw [checkOrgAdmin_bind]
  refine require_cases (.nothing _) fun _ => require_cases (.nothing _) fun hguard => ?_
  exact .removed claims orgId userId hguard

theorem effect_updateMemberRole (claims : Claims) (orgId userId newRole : String) :
    Effect s (.updateMemberRole claims orgId userId newRole)
      (updateMemberRole claims orgId userId newRole s).2 := by
  unfold updateMemberRole
  rw [checkOrgAdmin_bind]
  refine require_cases (.nothing _) fun hadmin => require_cases (.nothing _) fun hrole => ?_
  rw [read_bind]
  cases hmember : s.orgMembers.get (memberKey orgId userId) with
  | none => exact .nothing _
  | some m => exact .updated claims orgId userId newRole m hadmin hrole hmember

theorem effect_acceptInvitation (hs : s.Ok) (claims : Claims) (inviteId : String) :
    Effect s (.acceptInvitation claims inviteId) (acceptInvitation claims inviteId s).2 := by
  unfold acceptInvitation
  rw [read_bind]
  cases hfound : (s.orgInvitations.get inviteId).filter fun i => decide (i.IsOpen s.now) with
  | none => exact .nothing _
  | some i =>
    obtain ⟨hget, hopen⟩ := Option.filter_eq_some_iff.mp hfound
    have hopen := of_decide_eq_true hopen
    refine require_cases (.nothing _) fun hemail => ?_
    have heffect := Effect.accepted claims inviteId i hget hopen hemail
    rcases insertMember_run i.orgId claims.sub ⟨i.role, none, s.now⟩ s with
      hrun | ⟨hskip, hrun⟩ | ⟨hfree, -, hrun⟩
    · rw [bind_of_error hrun]
      exact .nothing _
    · have hrole := not_not.mpr (hs.invitation inviteId i hget).role
      rw [OrgDb.joined, if_pos (hskip.resolve_right hrole)] at heffect
      rw [bind_of_ok hrun]
      exact heffect
    · rw [bind_of_ok hrun]
      have hrow := SortedMap.contains_eq_false_iff.mpr hfree
      rw [OrgDb.joined, if_neg (Bool.eq_false_iff.mp hrow)] at heffect
      exact heffect

theorem effect_next (hs : s.Ok) (e : Event) : Effect s e (s.next isAlphanumeric e) := by
  cases e with
  | pass seconds => exact .passed seconds
  | insertAccount email userId => exact effect_insertAccount email userId
  | createOrg claims req orgId => exact effect_createOrg hs claims req orgId
  | inviteMember claims orgId email role uuid =>
    exact effect_inviteMember claims orgId email role uuid
  | removeMember claims orgId userId => exact effect_removeMember claims orgId userId
  | updateMemberRole claims orgId userId newRole =>
    exact effect_updateMemberRole claims orgId userId newRole
  | acceptInvitation claims inviteId => exact effect_acceptInvitation hs claims inviteId

/-! ### The rows in every state -/

theorem OrgDb.empty_ok : OrgDb.empty.Ok := ⟨nofun, nofun, nofun⟩

theorem exists_row {orgId userId : String} (h : IsPrivileged (s.roleOf orgId userId)) :
    ∃ m, s.orgMembers.get (memberKey orgId userId) = some m ∧ IsPrivileged (some m.role) := by
  unfold OrgDb.roleOf at h
  cases hget : s.orgMembers.get (memberKey orgId userId) with
  | none =>
    rw [hget] at h
    rcases h with h | h <;> cases h
  | some m =>
    rw [hget] at h
    exact ⟨m, rfl, h⟩

theorem roleOf_insert {orgId userId : String} {m : OrgMember}
    (ht : t.orgMembers = s.orgMembers.insert (memberKey orgId userId) m) (org user : String) :
    t.roleOf org user = if org = orgId ∧ user = userId then some m.role else s.roleOf org user := by
  unfold OrgDb.roleOf
  rw [ht, SortedMap.get_insert]
  simp only [memberKey_inj]
  split <;> rfl

theorem roleOf_erase {orgId userId : String}
    (ht : t.orgMembers = s.orgMembers.erase (memberKey orgId userId)) (org user : String) :
    t.roleOf org user = if org = orgId ∧ user = userId then none else s.roleOf org user := by
  unfold OrgDb.roleOf
  rw [ht, SortedMap.get_erase]
  simp only [memberKey_inj]
  split <;> rfl

/-- An open invitation to an address. -/
def Offers (s : OrgDb) (inviteId email org role : String) : Prop :=
  ∃ i, s.orgInvitations.get inviteId = some i ∧ i.IsOpen s.now ∧ i.email = email ∧ i.orgId = org ∧
    i.role = role

/-- Why an event gives a user a role. -/
def Grants (s : OrgDb) (org user role : String) : Event → Prop
  | .createOrg claims _ orgId =>
    orgId = org ∧ claims.sub = user ∧ role = "owner" ∧ s.orgs.contains org = false
  | .inviteMember claims orgId email newRole _ => orgId = org ∧ newRole = role ∧
    s.accounts.get email = some user ∧ IsPrivileged (s.roleOf org claims.sub)
  | .updateMemberRole claims orgId userId newRole => orgId = org ∧ userId = user ∧ newRole = role ∧
    IsPrivileged (s.roleOf org claims.sub) ∧ s.orgMembers.get (memberKey org user) ≠ none
  | .acceptInvitation claims inviteId => claims.sub = user ∧ Offers s inviteId claims.email org role
  | .pass _ | .insertAccount .. | .removeMember .. => False

theorem get_insert_member {m m' : OrgMember} {orgId userId org user : String}
    (h : (s.orgMembers.insert (memberKey orgId userId) m').get (memberKey org user) = some m) :
    s.orgMembers.get (memberKey org user) = some m ∨ orgId = org ∧ userId = user ∧ m = m' := by
  rw [SortedMap.get_insert] at h
  split at h
  · rename_i hkey
    obtain ⟨rfl, rfl⟩ := memberKey_inj.mp hkey
    exact .inr ⟨rfl, rfl, (Option.some.inj h).symm⟩
  · exact .inl h

theorem Effect.orgs {e : Event} (h : Effect s e t) {org : String}
    (horg : s.orgs.contains org = true) : t.orgs.contains org = true := by
  cases h with
  | created => exact SortedMap.contains_insert horg
  | _ => exact horg

/-- A row was there before, or the event gives the role. -/
theorem Effect.row (hs : s.Ok) {e : Event} (h : Effect s e t) {org user : String} {m : OrgMember}
    (hrow : t.orgMembers.get (memberKey org user) = some m) :
    s.orgMembers.get (memberKey org user) = some m ∨
      Grants s org user m.role e ∧ t.orgs.contains org = true := by
  cases h with
  | nothing | passed | registered | invited => exact .inl hrow
  | created claims req orgId row hnew =>
    rcases get_insert_member hrow with hold | ⟨rfl, rfl, rfl⟩
    · exact .inl hold
    · exact .inr ⟨⟨rfl, rfl, rfl, hnew⟩, by simp [SortedMap.contains_eq]⟩
  | added claims orgId email role uuid userId hadmin hemail horg =>
    rcases get_insert_member hrow with hold | ⟨rfl, rfl, rfl⟩
    · exact .inl hold
    · exact .inr ⟨⟨rfl, rfl, hemail, hadmin⟩, horg⟩
  | removed claims orgId userId =>
    rw [SortedMap.get_erase] at hrow
    split at hrow
    · cases hrow
    · exact .inl hrow
  | updated claims orgId userId newRole m' hadmin hrole hmember =>
    rcases get_insert_member hrow with hold | ⟨rfl, rfl, rfl⟩
    · exact .inl hold
    · have hold : s.orgMembers.get (memberKey orgId userId) ≠ none := by rw [hmember]; nofun
      exact .inr ⟨⟨rfl, rfl, rfl, hadmin, hold⟩, hs.member orgId userId m' hmember⟩
  | accepted claims inviteId i hget hopen hemail =>
    change (s.joined i.orgId claims.sub i.role).get _ = _ at hrow
    unfold OrgDb.joined at hrow
    split at hrow
    · exact .inl hrow
    · rcases get_insert_member hrow with hold | ⟨rfl, rfl, rfl⟩
      · exact .inl hold
      · exact .inr ⟨⟨rfl, i, hget, hopen, hemail, rfl, rfl⟩, (hs.invitation inviteId i hget).org⟩

theorem Effect.accounts {e : Event} (h : Effect s e t) {email userId : String}
    (hemail : s.accounts.get email = some userId) : t.accounts.get email = some userId := by
  cases h with
  | registered email' userId' hid hnew =>
    rw [SortedMap.get_insert, if_neg]
    · exact hemail
    · rintro rfl
      rw [hnew] at hemail
      cases hemail
  | _ => exact hemail

/-- An invitation was there before, and has at most been accepted since, or an admin issues it. -/
theorem Effect.invitation {e : Event} (h : Effect s e t) {inviteId : String} {i : OrgInvitation}
    (hget : t.orgInvitations.get inviteId = some i) :
    (∃ old, s.orgInvitations.get inviteId = some old ∧
      (i = old ∨ i = { old with acceptedAt := some s.now })) ∨
    ∃ claims uuid, e = .inviteMember claims i.orgId i.email i.role uuid ∧
      inviteId = "inv_" ++ uuid ∧ IsPrivileged (s.roleOf i.orgId claims.sub) ∧ i.role ∈ validRoles ∧
      i = ⟨i.orgId, i.email, i.role, claims.sub, s.now, none, s.now + week⟩ := by
  cases h with
  | invited claims orgId email role uuid hadmin hrole =>
    rw [SortedMap.get_insert] at hget
    split at hget
    · rename_i hid
      cases hget
      exact .inr ⟨claims, uuid, rfl, hid, hadmin, hrole, rfl⟩
    · exact .inl ⟨i, hget, .inl rfl⟩
  | accepted claims inviteId' old hold =>
    rw [SortedMap.get_insert] at hget
    split at hget
    · rename_i hid
      subst hid
      exact .inl ⟨old, hold, .inr (Option.some.inj hget).symm⟩
    · exact .inl ⟨i, hget, .inl rfl⟩
  | _ => exact .inl ⟨i, hget, .inl rfl⟩

theorem Effect.ok (hs : s.Ok) {e : Event} (h : Effect s e t) : t.Ok where
  member org user m hrow := by
    rcases h.row hs hrow with hold | hgrants
    · exact h.orgs (hs.member org user m hold)
    · exact hgrants.2
  invitation inviteId i hget := by
    rcases h.invitation hget with ⟨old, hold, rfl | rfl⟩ | ⟨claims, uuid, -, -, hadmin, hrole, hi⟩
    · have hinv := hs.invitation inviteId i hold
      exact ⟨h.orgs hinv.org, hinv.role, hinv.expires⟩
    · have hinv := hs.invitation inviteId old hold
      exact ⟨h.orgs hinv.org, hinv.role, hinv.expires⟩
    · obtain ⟨m, hm, -⟩ := exists_row hadmin
      exact ⟨h.orgs (hs.member i.orgId claims.sub m hm), hrole, by rw [hi]⟩
  account := by
    intro email email' userId hemail hemail'
    cases h with
    | registered new newId hid hnew =>
      rw [SortedMap.get_insert] at hemail hemail'
      split at hemail <;> split at hemail'
      · rename_i heq heq'
        exact heq.trans heq'.symm
      · cases hemail
        exact absurd hemail' (hid _)
      · cases hemail'
        exact absurd hemail (hid _)
      · exact hs.account hemail hemail'
    | _ => exact hs.account hemail hemail'

theorem trace_ok (h : Leads isAlphanumeric .empty s) : s.Ok :=
  h.invariant OrgDb.Ok (fun _ e hs _ => (effect_next hs e).ok hs) OrgDb.empty_ok

/-! ### Where membership comes from -/

section Runs
variable (hrun : Leads isAlphanumeric .empty s)
include hrun

theorem row_granted {org user : String} {m : OrgMember}
    (hrow : s.orgMembers.get (memberKey org user) = some m) :
    ∃ b e, Leads isAlphanumeric .empty b ∧ b.Genuine e ∧
      Grants b org user m.role e ∧
      Run (OrgDb.next isAlphanumeric) (fun u e => u.Genuine e ∧
        u.orgMembers.get (memberKey org user) = some m) (b.next isAlphanumeric e) s := by
  induction hrun with
  | refl => cases hrow
  | @tail b e hb he ih =>
    rcases (effect_next (trace_ok hb) e).row (trace_ok hb) hrow with hold | ⟨hgrants, -⟩
    · obtain ⟨b', e', hb', he', hgrants, hsince⟩ := ih hold
      exact ⟨b', e', hb', he', hgrants, hsince.tail ⟨he, hold⟩⟩
    · exact ⟨b, e, hb, he, hgrants, .refl _⟩

/-- The event that issues an invitation. -/
def Issues (b : OrgDb) (inviteId : String) (i : OrgInvitation) (e : Event) : Prop :=
  ∃ claims uuid, e = .inviteMember claims i.orgId i.email i.role uuid ∧ inviteId = "inv_" ++ uuid ∧
    i.invitedBy = claims.sub ∧ i.createdAt = b.now ∧ IsPrivileged (b.roleOf i.orgId claims.sub)

theorem invitation_issued {inviteId : String} {i : OrgInvitation}
    (hget : s.orgInvitations.get inviteId = some i) :
    ∃ b e, Leads isAlphanumeric .empty b ∧ b.Genuine e ∧
      Issues b inviteId i e ∧
      Leads isAlphanumeric (b.next isAlphanumeric e) s := by
  induction hrun generalizing i with
  | refl => cases hget
  | @tail b e hb he ih =>
    rcases (effect_next (trace_ok hb) e).invitation hget with
      ⟨old, hold, hi⟩ | ⟨claims, uuid, he', hid, hadmin, -, hi⟩
    · obtain ⟨b', e', hb', he', ⟨claims, uuid, hissue⟩, hsince⟩ := ih hold
      refine ⟨b', e', hb', he', ⟨claims, uuid, ?_⟩, hsince.tail he⟩
      rcases hi with rfl | rfl
      · exact hissue
      · exact hissue
    · exact ⟨b, e, hb, he, ⟨claims, uuid, he', hid, by rw [hi], by rw [hi], hadmin⟩, .refl _⟩

end Runs

def team (events : List Event) : OrgDb := events.foldl (OrgDb.next Char.isAlphanum) .empty

theorem run_team (events : List Event)
    (h : Run.Allows (OrgDb.next Char.isAlphanum) OrgDb.Genuine .empty events) :
    Leads Char.isAlphanum .empty (team events) := Run.of_allows events h

def ann : Claims := ⟨"u1", "ann@x", "free"⟩

def bob : Claims := ⟨"u2", "bob@x", "free"⟩

/-- Bob is invited before he has an account. -/
def invitedBob : List Event := [.insertAccount "ann@x" "u1", .createOrg ann ⟨"team", none⟩ "o1",
  .inviteMember ann "o1" "bob@x" "admin" "1", .insertAccount "bob@x" "u2"]

def hired : List Event := invitedBob ++ [.acceptInvitation bob "inv_1"]

/-- An invitation that is accepted or expired. -/
def Closed (s : OrgDb) (inviteId : String) : Prop :=
  ∃ i, s.orgInvitations.get inviteId = some i ∧ ¬i.IsOpen s.now

theorem Effect.now {e : Event} (h : Effect s e t) : s.now ≤ t.now := by
  cases h with
  | passed seconds => exact Nat.le_add_right ..
  | _ => exact Nat.le_refl _

theorem not_open_later {i : OrgInvitation} {now now' : Nat} (h : ¬i.IsOpen now) (hle : now ≤ now') :
    ¬i.IsOpen now' := fun hopen => h ⟨hopen.1, Nat.lt_of_le_of_lt hle hopen.2⟩

theorem Effect.closed {e : Event} (h : Effect s e t) {inviteId : String}
    (hclosed : Closed s inviteId) : Closed t inviteId := by
  obtain ⟨i, hget, hi⟩ := hclosed
  cases h with
  | nothing | registered | created | added | removed | updated => exact ⟨i, hget, hi⟩
  | passed seconds => exact ⟨i, hget, not_open_later hi (Nat.le_add_right ..)⟩
  | invited claims orgId email role uuid hadmin hrole hnew =>
    refine ⟨i, ?_, hi⟩
    rw [SortedMap.get_insert, if_neg]
    · exact hget
    · rintro rfl
      rw [hnew] at hget
      cases hget
  | accepted claims inviteId' i' hget' hopen =>
    refine ⟨i, ?_, hi⟩
    rw [SortedMap.get_insert, if_neg]
    · exact hget
    · rintro rfl
      rw [hget'] at hget
      cases hget
      exact hi hopen

theorem acceptInvitation_of_closed (claims : Claims) {inviteId : String} (h : Closed s inviteId) :
    acceptInvitation claims inviteId s = (.error .invitationNotFound, s) := by
  obtain ⟨i, hget, hi⟩ := h
  unfold acceptInvitation
  rw [read_bind, hget, Option.filter_some, if_neg (by simpa using hi)]
  rfl

theorem acceptInvitation_ok {claims : Claims} {inviteId : String}
    (h : (acceptInvitation claims inviteId s).1 = .ok ()) :
    ∃ i, s.orgInvitations.get inviteId = some i ∧ i.IsOpen s.now ∧ i.email = claims.email ∧
      (acceptInvitation claims inviteId s).2.orgInvitations.get inviteId =
        some { i with acceptedAt := some s.now } := by
  unfold acceptInvitation at h ⊢
  rw [read_bind] at h ⊢
  cases hfound : (s.orgInvitations.get inviteId).filter fun i => decide (i.IsOpen s.now) with
  | none =>
    rw [hfound] at h
    cases h
  | some i =>
    rw [hfound] at h
    obtain ⟨hget, hopen⟩ := Option.filter_eq_some_iff.mp hfound
    by_cases hemail : i.email = claims.email
    · dsimp only at h ⊢
      rw [require_bind hemail] at h ⊢
      refine ⟨i, hget, of_decide_eq_true hopen, hemail, ?_⟩
      rcases insertMember_run i.orgId claims.sub ⟨i.role, none, s.now⟩ s with
        hrun | ⟨-, hrun⟩ | ⟨-, -, hrun⟩
      · rw [bind_of_error hrun] at h
        cases h
      · rw [bind_of_ok hrun]
        exact (SortedMap.get_insert ..).trans (if_pos rfl)
      · rw [bind_of_ok hrun]
        exact (SortedMap.get_insert ..).trans (if_pos rfl)
    · dsimp only at h
      rw [require_bind_of_not hemail] at h
      cases h

/-- An invitation lets its addressee in within a week of being made, and once: whatever happens
then, it is not found again. -/
theorem invitation_accepted_once {b : OrgDb}
    (hrun : Leads isAlphanumeric .empty b) {claims : Claims}
    {inviteId : String} (hgenuine : b.Genuine (.acceptInvitation claims inviteId))
    (hok : (acceptInvitation claims inviteId b).1 = .ok ())
    (hlater : Leads isAlphanumeric
      (b.next isAlphanumeric (.acceptInvitation claims inviteId)) s) :
    (∃ i, b.orgInvitations.get inviteId = some i ∧ b.accounts.get i.email = some claims.sub ∧
      i.acceptedAt = none ∧ b.now < i.createdAt + week) ∧
    ∀ claims', acceptInvitation claims' inviteId s = (.error .invitationNotFound, s) := by
  have hb := trace_ok hrun
  obtain ⟨i, hget, hopen, hemail, hafter⟩ := acceptInvitation_ok hok
  have hweek := (hb.invitation inviteId i hget).expires ▸ hopen.2
  refine ⟨⟨i, hget, ?_, hopen.1, hweek⟩, fun claims' => ?_⟩
  · rw [hemail]
    exact hgenuine claims rfl
  · have hclosed : s.Ok ∧ Closed s inviteId := by
      refine hlater.invariant (fun u => u.Ok ∧ Closed u inviteId) (fun u e hu _ => ?_) ⟨?_, ?_⟩
      · exact ⟨(effect_next hu.1 e).ok hu.1, (effect_next hu.1 e).closed hu.2⟩
      · exact (effect_next hb _).ok hb
      · exact ⟨_, hafter, fun h => by cases h.1⟩
    exact acceptInvitation_of_closed claims' hclosed.2

theorem invitation_accepted_once_hired :
    (∃ i, (team invitedBob).orgInvitations.get "inv_1" = some i ∧
      (team invitedBob).accounts.get i.email = some "u2" ∧ i.acceptedAt = none ∧
        (team invitedBob).now < i.createdAt + week) ∧
    ∀ claims, acceptInvitation claims "inv_1" (team hired) =
      (.error .invitationNotFound, team hired) :=
  invitation_accepted_once (run_team invitedBob (by decide +kernel))
    (show (team invitedBob).Genuine (.acceptInvitation bob "inv_1") by decide +kernel) (by rfl)
    (.refl _)

/-! ### Those who are out -/

/-- An invitation of an address to an organization. -/
def Invites (org email : String) : Event → Prop
  | .inviteMember _ orgId address _ _ => orgId = org ∧ address = email
  | _ => False

instance (org email : String) : DecidablePred (Invites org email)
  | .inviteMember _ orgId address _ _ => inferInstanceAs (Decidable (orgId = org ∧ address = email))
  | .pass _ | .insertAccount .. | .createOrg .. | .removeMember .. | .updateMemberRole ..
  | .acceptInvitation .. => inferInstanceAs (Decidable False)

/-- Outside, and with no open invitation to come in. -/
structure Out (org user email : String) (s : OrgDb) : Prop where
  ok : s.Ok
  made : s.orgs.contains org = true
  account : s.accounts.get email = some user
  row : s.orgMembers.get (memberKey org user) = none
  closed : ∀ inviteId i, s.orgInvitations.get inviteId = some i → i.orgId = org → i.email = email →
    ¬i.IsOpen s.now

theorem Out.next {org user email : String} (hs : Out org user email s) {e : Event}
    (hgenuine : s.Genuine e) (hinvites : ¬Invites org email e) :
    Out org user email (s.next isAlphanumeric e) := by
  have heffect : Effect s e (s.next isAlphanumeric e) := effect_next hs.ok e
  refine ⟨heffect.ok hs.ok, heffect.orgs hs.made, heffect.accounts hs.account, ?_, ?_⟩
  · by_contra hrow
    obtain ⟨m, hm⟩ := Option.ne_none_iff_exists'.mp hrow
    rcases heffect.row hs.ok hm with hold | ⟨hgrants, -⟩
    · rw [hs.row] at hold
      cases hold
    · cases e with
      | createOrg claims req orgId =>
        obtain ⟨-, -, -, hnew⟩ := hgrants
        rw [hs.made] at hnew
        cases hnew
      | inviteMember claims orgId email' role uuid =>
        obtain ⟨rfl, -, hemail, -⟩ := hgrants
        exact hinvites ⟨rfl, (hs.ok.account hs.account hemail).symm⟩
      | updateMemberRole claims orgId userId newRole =>
        obtain ⟨-, -, -, -, hmember⟩ := hgrants
        exact hmember hs.row
      | acceptInvitation claims inviteId =>
        obtain ⟨rfl, i, hget, hopen, hemail, horg, -⟩ := hgrants
        have haddress := hs.ok.account hs.account (hgenuine claims rfl)
        exact hs.closed inviteId i hget horg (hemail.trans haddress.symm) hopen
      | pass | insertAccount | removeMember => exact hgrants
  · intro inviteId i hget horg hemail hopen
    rcases heffect.invitation hget with ⟨old, hold, rfl | rfl⟩ | ⟨claims, uuid, rfl, -⟩
    · exact not_open_later (hs.closed inviteId i hold horg hemail) heffect.now hopen
    · cases hopen.1
    · exact hinvites ⟨horg, hemail⟩

/-- Who is not a member, and has no open invitation, becomes one only by a new invitation. -/
theorem outsider_stays_out {b : OrgDb} {org user email : String}
    (hrun : Leads isAlphanumeric .empty b)
    (horg : b.orgs.contains org = true) (haccount : b.accounts.get email = some user)
    (hrow : b.orgMembers.get (memberKey org user) = none)
    (hclosed : ∀ inviteId i, b.orgInvitations.get inviteId = some i → i.orgId = org →
      i.email = email → ¬i.IsOpen b.now)
    (hlater : Run (OrgDb.next isAlphanumeric) (fun u e => u.Genuine e ∧ ¬Invites org email e) b s) :
    s.orgMembers.get (memberKey org user) = none :=
  (hlater.invariant (Out org user email) (fun _ _ hu he => hu.next he.1 he.2)
    ⟨trace_ok hrun, horg, haccount, hrow, hclosed⟩).row

/-- Bob has to go. -/
def fired : List Event := hired ++ [.removeMember ann "o1" "u2"]

theorem outsider_stays_out_fired :
    (team (fired ++ [.pass 5, .acceptInvitation bob "inv_1"])).orgMembers.get
      (memberKey "o1" "u2") = none := by
  have hclosed : ∀ e ∈ (team fired).orgInvitations.entries, ¬e.2.IsOpen (team fired).now := by
    decide +kernel
  have hlater : Run (OrgDb.next Char.isAlphanum) (fun u e => u.Genuine e ∧ ¬Invites "o1" "bob@x" e)
      (team fired) (team (fired ++ [.pass 5, .acceptInvitation bob "inv_1"])) := by
    unfold team
    rw [List.foldl_append]
    exact Run.of_allows [Event.pass 5, Event.acceptInvitation bob "inv_1"] (by decide +kernel)
  exact outsider_stays_out (run_team fired (by decide +kernel)) (by decide +kernel)
    (by decide +kernel) (by decide +kernel)
    (fun inviteId i hget _ _ => hclosed (inviteId, i) (SortedMap.mem_entries.mpr hget)) hlater

/-! ### The last admin -/

def HasAdmin (s : OrgDb) (org : String) : Prop := ∃ user, IsPrivileged (s.roleOf org user)

/-- The only admin takes a lower role. -/
def StepsDown (s : OrgDb) (org : String) : Event → Prop
  | .updateMemberRole claims orgId userId newRole => orgId = org ∧ userId = claims.sub ∧
    newRole ∈ validRoles ∧ ¬IsPrivileged (some newRole) ∧ IsPrivileged (s.roleOf org claims.sub) ∧
    adminCount s org ≤ 1
  | _ => False

theorem mem_adminRows {org : String} {e : MemberKey × OrgMember} : e ∈ adminRows s org ↔
    ∃ user, e.1 = memberKey org user ∧ s.orgMembers.get (memberKey org user) = some e.2 ∧
      IsPrivileged (some e.2.role) := by
  obtain ⟨k, m⟩ := e
  rw [adminRows, List.mem_filter, SortedMap.mem_entries, decide_eq_true_eq]
  constructor
  · rintro ⟨hget, rfl, hrole⟩
    exact ⟨(ofLex k).2, rfl, hget, hrole⟩
  · rintro ⟨user, rfl, hget, hrole⟩
    exact ⟨hget, rfl, hrole⟩

theorem mem_adminRows_of_role {org user : String} (h : IsPrivileged (s.roleOf org user)) :
    ∃ m, (memberKey org user, m) ∈ adminRows s org := by
  obtain ⟨m, hget, hrole⟩ := exists_row h
  exact ⟨m, mem_adminRows.mpr ⟨user, rfl, hget, hrole⟩⟩

theorem eq_of_length_le_one {α : Type} {l : List α} (h : l.length ≤ 1) {a b : α} (ha : a ∈ l)
    (hb : b ∈ l) : a = b := by
  match l with
  | [] => cases ha
  | [c] => exact (List.mem_singleton.mp ha).trans (List.mem_singleton.mp hb).symm
  | _ :: _ :: _ => simp at h

theorem sole_admin {org user user' : String} (hcount : adminCount s org ≤ 1)
    (h : IsPrivileged (s.roleOf org user)) (h' : IsPrivileged (s.roleOf org user')) :
    user = user' := by
  obtain ⟨m, hm⟩ := mem_adminRows_of_role h
  obtain ⟨m', hm'⟩ := mem_adminRows_of_role h'
  have heq := eq_of_length_le_one hcount hm hm'
  exact (memberKey_inj.mp (Prod.mk.inj heq).1).2

theorem role_of_mem_adminRows {org : String} {e : MemberKey × OrgMember}
    (he : e ∈ adminRows s org) :
    ∃ user, e.1 = memberKey org user ∧ IsPrivileged (s.roleOf org user) := by
  obtain ⟨user, hkey, hget, hrole⟩ := mem_adminRows.mp he
  refine ⟨user, hkey, ?_⟩
  rw [OrgDb.roleOf, hget]
  exact hrole

/-- Of two or more admins, one is somebody else. -/
theorem other_admin {org : String} (hcount : ¬adminCount s org ≤ 1) (user : String) :
    ∃ user', user' ≠ user ∧ IsPrivileged (s.roleOf org user') := by
  have hsorted : (adminRows s org).Pairwise fun x y => x.1 < y.1 :=
    s.orgMembers.sorted.sublist List.filter_sublist
  have hmem : ∀ e ∈ adminRows s org, ∃ user, e.1 = memberKey org user ∧
      IsPrivileged (s.roleOf org user) := fun e he => role_of_mem_adminRows he
  match hrows : adminRows s org with
  | [] | [_] => simp [adminCount, hrows] at hcount
  | a :: b :: rest =>
    rw [hrows] at hsorted hmem
    obtain ⟨ua, ha, hroleA⟩ := hmem a (by simp)
    obtain ⟨ub, hb, hroleB⟩ := hmem b (by simp)
    have hne : ua ≠ ub := by
      rintro rfl
      have hlt := (List.pairwise_cons.mp hsorted).1 b (by simp)
      rw [ha, hb] at hlt
      exact lt_irrefl _ hlt
    by_cases hua : ua = user
    · exact ⟨ub, fun h => hne (hua.trans h.symm), hroleB⟩
    · exact ⟨ua, hua, hroleA⟩

/-- Whoever does not step down leaves an admin. -/
theorem Effect.hasAdmin {e : Event} (h : Effect s e t) {org : String} (hadmin : HasAdmin s org) :
    HasAdmin t org ∨ StepsDown s org e := by
  obtain ⟨user, huser⟩ := hadmin
  cases h with
  | nothing | passed | registered | invited => exact .inl ⟨user, huser⟩
  | created claims req orgId row hnew =>
    refine .inl ⟨user, ?_⟩
    rw [roleOf_insert rfl]
    split
    · exact .inr rfl
    · exact huser
  | added claims orgId email role uuid userId hcaller hemail horg hnew =>
    refine .inl ⟨user, ?_⟩
    rw [roleOf_insert rfl, if_neg]
    · exact huser
    · rintro ⟨rfl, rfl⟩
      obtain ⟨m, hm, -⟩ := exists_row huser
      rw [hnew] at hm
      cases hm
  | removed claims orgId userId hguard =>
    by_cases hsame : org = orgId ∧ user = userId
    · obtain ⟨rfl, rfl⟩ := hsame
      obtain ⟨user', hne, hother⟩ := other_admin (fun hcount => hguard ⟨huser, hcount⟩) user
      refine .inl ⟨user', ?_⟩
      rw [roleOf_erase rfl, if_neg fun h => hne h.2]
      exact hother
    · refine .inl ⟨user, ?_⟩
      rw [roleOf_erase rfl, if_neg hsame]
      exact huser
  | updated claims orgId userId newRole m hcaller hrole hmember =>
    by_cases hsame : org = orgId ∧ user = userId
    · obtain ⟨rfl, rfl⟩ := hsame
      by_cases hnew : IsPrivileged (some newRole)
      · refine .inl ⟨user, ?_⟩
        rw [roleOf_insert rfl, if_pos ⟨rfl, rfl⟩]
        exact hnew
      by_cases hcount : adminCount s org ≤ 1
      · obtain rfl := sole_admin hcount huser hcaller
        exact .inr ⟨rfl, rfl, hrole, hnew, hcaller, hcount⟩
      · obtain ⟨user', hne, hother⟩ := other_admin hcount user
        refine .inl ⟨user', ?_⟩
        rw [roleOf_insert rfl, if_neg fun h => hne h.2]
        exact hother
    · refine .inl ⟨user, ?_⟩
      rw [roleOf_insert rfl, if_neg hsame]
      exact huser
  | accepted claims inviteId i hget =>
    refine .inl ⟨user, ?_⟩
    unfold OrgDb.joined
    split
    · exact huser
    · rename_i hfree
      rw [roleOf_insert rfl, if_neg]
      · exact huser
      · rintro ⟨rfl, rfl⟩
        obtain ⟨m, hm, -⟩ := exists_row huser
        exact hfree (by rw [SortedMap.contains_eq, hm]; rfl)

theorem not_hasAdmin_of_stepsDown {org : String} {e : Event} (h : StepsDown s org e) :
    ¬HasAdmin (s.next isAlphanumeric e) org := by
  cases e with
  | updateMemberRole claims orgId userId newRole =>
    obtain ⟨rfl, rfl, hrole, hnew, hcaller, hcount⟩ := h
    obtain ⟨m, hget, -⟩ := exists_row hcaller
    have hnext : s.next isAlphanumeric (.updateMemberRole claims orgId claims.sub newRole) =
        { s with orgMembers :=
          s.orgMembers.insert (memberKey orgId claims.sub) { m with role := newRole } } := by
      rw [OrgDb.next, updateMemberRole, checkOrgAdmin_bind, require_bind hcaller, validateRole,
        require_bind hrole, read_bind, hget]
      rfl
    rintro ⟨user, huser⟩
    rw [hnext, roleOf_insert rfl] at huser
    split at huser
    · exact hnew huser
    · rename_i hother
      exact hother ⟨rfl, sole_admin hcount huser hcaller⟩
  | _ => exact h.elim

/-- Who makes an organization is its first admin. -/
theorem Effect.newOrg {e : Event} (h : Effect s e t) {org : String}
    (hold : s.orgs.contains org = false) (horg : t.orgs.contains org = true) : HasAdmin t org := by
  cases h with
  | created claims req orgId row =>
    by_cases hsame : org = orgId
    · subst hsame
      refine ⟨claims.sub, ?_⟩
      rw [roleOf_insert rfl, if_pos ⟨rfl, rfl⟩]
      exact .inr rfl
    · rw [SortedMap.contains_eq_false_iff] at hold
      rw [SortedMap.contains_eq, SortedMap.get_insert, if_neg hsame, hold] at horg
      cases horg
  | _ =>
    rw [show s.orgs.contains org = true from horg] at hold
    cases hold

theorem admin_or_stepped_down (hrun : Leads isAlphanumeric .empty s)
    {org : String} (horg : s.orgs.contains org = true) : HasAdmin s org ∨ ∃ b e,
      Leads isAlphanumeric .empty b ∧ b.Genuine e ∧ StepsDown b org e ∧
        Leads isAlphanumeric (b.next isAlphanumeric e) s := by
  induction hrun with
  | refl => cases horg
  | @tail b e hb he ih =>
    have heffect : Effect b e (b.next isAlphanumeric e) := effect_next (trace_ok hb) e
    cases hold : b.orgs.contains org with
    | false => exact .inl (heffect.newOrg hold horg)
    | true =>
      rcases ih hold with hadmin | ⟨b', e', hb', he', hdown, hsince⟩
      · rcases heffect.hasAdmin hadmin with hnext | hdown
        · exact .inl hnext
        · exact .inr ⟨b, e, hb, he, hdown, .refl _⟩
      · exact .inr ⟨b', e', hb', he', hdown, hsince.tail he⟩

/-- An organization has an admin, unless its last one has taken a lower role; and nothing else
takes the last one away. -/
theorem last_admin_stays (hrun : Leads isAlphanumeric .empty s) {org : String}
    (horg : s.orgs.contains org = true) :
    (HasAdmin s org ∨ ∃ b e, Leads isAlphanumeric .empty b ∧ b.Genuine e ∧
      StepsDown b org e ∧ Leads isAlphanumeric (b.next isAlphanumeric e) s) ∧
    ∀ e, HasAdmin s org → (HasAdmin (s.next isAlphanumeric e) org ↔ ¬StepsDown s org e) :=
  ⟨admin_or_stepped_down hrun horg, fun e hadmin =>
    ⟨fun h hdown => not_hasAdmin_of_stepsDown hdown h,
      ((effect_next (trace_ok hrun) e).hasAdmin hadmin).resolve_right⟩⟩

theorem last_admin_stays_hired :
    (HasAdmin (team hired) "o1" ∨ ∃ b e, Leads Char.isAlphanum .empty b ∧
      b.Genuine e ∧ StepsDown b "o1" e ∧
        Leads Char.isAlphanum (b.next Char.isAlphanum e) (team hired)) ∧
    ∀ e, HasAdmin (team hired) "o1" →
      (HasAdmin ((team hired).next Char.isAlphanum e) "o1" ↔ ¬StepsDown (team hired) "o1" e) :=
  last_admin_stays (run_team hired (by decide +kernel)) (by decide +kernel)

end Suture.Hub.Orgs
