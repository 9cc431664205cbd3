import Mathlib.Logic.Function.Basic
import Grosh.Lib.Transition
import Grosh.RefreshTokens

/-!
# Revoked access tokens

An access token is a signed JWT that lives for fifteen minutes. A logout records its `jti` with its
`exp` in `revoked_tokens`, and both services look the `jti` of a presented token up there; a job of
the database deletes the rows whose `expires_at` has passed. No instant lies between: a row is
deleted only when `exp` is behind the clock, and from `exp` on the token itself is rejected.

* `revoked_never_authenticates` — in every run of logins, refreshes, logouts, purges and clock
  advances, no token that a committed logout has revoked passes the authentication of the API or of
  ingestion.
-/

namespace Grosh

open Transition

/-! ## Tokens -/

/-- The payload of an access token. `sub` and `jti` are `none` where the claim is missing or no
UUID. -/
structure Claims : Type where
  sub : Option UUID
  jti : Option UUID
  iat : Timestamp
  exp : Timestamp
  deriving DecidableEq

/-- `_ACCESS_TOKEN_TTL_MINUTES`. -/
def accessTokenTtl : Timestamp := 15 * 60 * second

/-- A JWT carries whole seconds. -/
def numericDate (t : Timestamp) : Timestamp := t / second * second

/-- `AuthService.encode_access_token`. -/
def encodeAccessToken (now : Timestamp) (userId jti : UUID) : Claims :=
  ⟨some userId, some jti, numericDate now, numericDate (now + accessTokenTtl)⟩

/-- A row of `revoked_tokens`, keyed by `jti`. -/
structure RevokedToken : Type where
  jti : UUID
  expiresAt : Timestamp
  deriving DecidableEq

/-- How far a logout has come with the access token it revokes. -/
inductive LogoutPhase : Type where
  | idle
  /-- it has decoded the token, and has a row to insert -/
  | decoded (token : Claims) (row : RevokedToken)
  /-- it has inserted the row -/
  | inserted (token : Claims) (row : RevokedToken)
  /-- it has found the row there -/
  | kept (token : Claims)
  /-- the token does not decode -/
  | nothing
  | committed (revoked : Option Claims)
  | aborted
  deriving DecidableEq

/-- The clock, the payloads that were ever signed, the committed `revoked_tokens`, the logout that
has inserted a `jti` and not ended, the rows a purge is deleting, and the logouts. -/
structure AccessState (τ : Type*) where
  now : Timestamp
  signed : List Claims
  revoked : KeyedTable RevokedToken.jti
  uncommitted : UUID → Option τ
  purging : Option (List UUID)
  logouts : τ → LogoutPhase

namespace AccessState

variable {τ : Type*}

/-- Nobody has logged in. -/
def start (now : Timestamp) : AccessState τ :=
  ⟨now, [], .empty, fun _ => none, none, fun _ => .idle⟩

/-- `decode_access_token`: the signature, and then the expiry. -/
def decodeAccessToken (s : AccessState τ) (token : Claims) : Except String Claims :=
  if token ∉ s.signed then .error "Invalid token."
  else if token.exp ≤ s.now then .error "Token has expired."
  else .ok token

/-- `RevokedTokenRepo.is_revoked`. -/
def isRevoked (s : AccessState τ) (jti : UUID) : Bool := decide (s.revoked.HasKey jti)

/-! ## Requests -/

/-- Why a request is answered with 401. -/
inductive AuthError : Type where
  | notAuthenticated
  | invalidAccessToken (message : String)
  deriving DecidableEq

/-- The `jti` of the payload is one that was revoked. -/
def jtiRevoked (s : AccessState τ) (payload : Claims) : Bool :=
  match payload.jti with
  | some jti => s.isRevoked jti
  | none => false

/-- `get_current_user` of the API; `none` is a request without a bearer token. -/
def getCurrentUser (s : AccessState τ) (users : KeyedTable AuthUser.id) :
    Option Claims → Except AuthError AuthUser
  | none => .error .notAuthenticated
  | some token =>
    match s.decodeAccessToken token with
    | .error message => .error (.invalidAccessToken message)
    | .ok payload =>
      if s.jtiRevoked payload then .error .notAuthenticated
      else
        match payload.sub.bind fun id => users.find? id with
        | none => .error .notAuthenticated
        | some record => if record.isActive then .ok record else .error .notAuthenticated

/-- `get_current_user_id` of ingestion, which checks the token as the API does. -/
def getCurrentUserId (s : AccessState τ) (users : KeyedTable AuthUser.id) :
    Option Claims → Except AuthError UUID
  | none => .error .notAuthenticated
  | some token =>
    match s.decodeAccessToken token with
    | .error _ => .error .notAuthenticated
    | .ok payload =>
      match payload.sub with
      | none => .error .notAuthenticated
      | some userId =>
        if s.jtiRevoked payload then .error .notAuthenticated
        else if (users.find? userId).any AuthUser.isActive then .ok userId
        else .error .notAuthenticated

/-! ## Steps

Logouts and purges are transactions beside each other, and a token may be presented at any moment
between their steps. -/

/-- Who moves: the clock, a login, a logout in its steps, or the purge in its two. -/
inductive Label (τ : Type*) where
  | advance (time : Timestamp)
  /-- a login or a refresh of the user signs a token -/
  | issue (userId jti : UUID)
  /-- a logout, of one session or of all, decodes the access token it was sent -/
  | decode (i : τ) (token : Claims)
  | insert (i : τ)
  | commit (i : τ)
  | abort (i : τ)
  | purgeStart
  | purgeEnd

/-- The first half of `_revoke_access_token`: what there is to insert, decided from the token
alone. -/
def revokeAccessToken (s : AccessState τ) (token : Claims) : LogoutPhase :=
  match s.decodeAccessToken token with
  | .error _ => .nothing
  | .ok payload =>
    match payload.jti with
    | none => .nothing
    | some jti => .decoded token ⟨jti, payload.exp⟩

/-- The rows `DELETE FROM revoked_tokens WHERE expires_at < now()` finds at that moment. -/
def expired (s : AccessState τ) : List UUID :=
  (s.revoked.rows.filter fun r => decide (r.expiresAt < s.now)).map RevokedToken.jti

variable [DecidableEq τ]

/-- The logout moves on, and nothing else changes. -/
def goto (s : AccessState τ) (i : τ) (phase : LogoutPhase) : AccessState τ :=
  { s with logouts := Function.update s.logouts i phase }

/-- The logout ends, and its row is no longer in flight: it is committed, or gone. -/
def finish (s : AccessState τ) (i : τ) (phase : LogoutPhase) : AccessState τ :=
  { s.goto i phase with
    uncommitted := fun jti => if s.uncommitted jti = some i then none else s.uncommitted jti }

/-- `RevokedTokenRepo.insert`, `ON CONFLICT (jti) DO NOTHING`: it waits for a logout that has
inserted the same `jti` and not ended. -/
def insertRow (s : AccessState τ) (i : τ) (token : Claims) (row : RevokedToken) :
    Option (AccessState τ) :=
  if s.revoked.HasKey row.jti then some (s.goto i (.kept token))
  else if s.uncommitted row.jti ≠ none then none
  else some { s.goto i (.inserted token row) with
    uncommitted := Function.update s.uncommitted row.jti (some i) }

/-- **One step of the system.** Time never goes back; the purge looks and deletes in two steps, with
others in between. -/
def step (s : AccessState τ) : Label τ → Option (AccessState τ)
  | .advance time => if s.now ≤ time then some { s with now := time } else none
  | .issue userId jti => some { s with signed := encodeAccessToken s.now userId jti :: s.signed }
  | .decode i token =>
    match s.logouts i with
    | .idle => some (s.goto i (s.revokeAccessToken token))
    | _ => none
  | .insert i =>
    match s.logouts i with
    | .decoded token row => s.insertRow i token row
    | _ => none
  | .commit i =>
    match s.logouts i with
    | .inserted token row =>
      some { s.finish i (.committed (some token)) with revoked := s.revoked.insertIgnore row }
    | .kept token => some (s.finish i (.committed (some token)))
    | .nothing => some (s.finish i (.committed none))
    | _ => none
  | .abort i =>
    match s.logouts i with
    | .committed _ => none
    | .aborted => none
    | _ => some (s.finish i .aborted)
  | .purgeStart => if s.purging = none then some { s with purging := some s.expired } else none
  | .purgeEnd =>
    match s.purging with
    | none => none
    | some keys =>
      some { s with
        revoked := s.revoked.deleteWhere fun r => decide (r.jti ∈ keys)
        purging := none }

/-! ## What is promised

A logout that has committed is final: from then on the token does not pass, neither while its row is
there nor after the purge. -/

omit [DecidableEq τ] in
/-- `uuid4` draws no `jti` twice, so that a row stands for one token. -/
def DrawsFresh (s : AccessState τ) : Label τ → Prop
  | .issue _ jti => ∀ c ∈ s.signed, c.jti ≠ some jti
  | _ => True

omit [DecidableEq τ] in
instance (s : AccessState τ) : ∀ l, Decidable (s.DrawsFresh l)
  | .issue _ jti => inferInstanceAs (Decidable (∀ c ∈ s.signed, c.jti ≠ some jti))
  | .advance _ => .isTrue trivial
  | .decode _ _ => .isTrue trivial
  | .insert _ => .isTrue trivial
  | .commit _ => .isTrue trivial
  | .abort _ => .isTrue trivial
  | .purgeStart => .isTrue trivial
  | .purgeEnd => .isTrue trivial

omit [DecidableEq τ] in
/-- No token that a committed logout has revoked passes, whoever the users are. -/
def RevokedOut (s : AccessState τ) : Prop :=
  ∀ i token, s.logouts i = .committed (some token) → ∀ users : KeyedTable AuthUser.id,
    (∀ user, s.getCurrentUser users (some token) ≠ .ok user) ∧
      ∀ userId, s.getCurrentUserId users (some token) ≠ .ok userId

/-! ## No gap between the purge and the expiry

A row may be deleted only after its token has expired. The two are compared at different times and
in different places, which is what the invariant brings together. -/

omit [DecidableEq τ] in
/-- The token has expired, or is recorded: one of the two keeps it out from then on. -/
def Out (s : AccessState τ) (token : Claims) : Prop :=
  token.exp < s.now ∨ ∃ jti, token.jti = some jti ∧ s.revoked.HasKey jti

omit [DecidableEq τ] in
/-- What a logout has to insert is the `jti` and the expiry of a signed token, and a token it has
done with is out. -/
def PhaseOk (s : AccessState τ) : LogoutPhase → Prop
  | .decoded token row =>
    token ∈ s.signed ∧ token.jti = some row.jti ∧ token.exp = row.expiresAt
  | .inserted token row =>
    token ∈ s.signed ∧ token.jti = some row.jti ∧ token.exp = row.expiresAt
  | .kept token => token ∈ s.signed ∧ s.Out token
  | .committed (some token) => token ∈ s.signed ∧ s.Out token
  | _ => True

omit [DecidableEq τ] in
/-- What holds in every state: a `jti` belongs to one signed token, a row carries the expiry of its
token, and what a purge is deleting has expired. -/
structure Recorded (s : AccessState τ) : Prop where
  unique : ∀ c ∈ s.signed, ∀ c' ∈ s.signed, c.jti = c'.jti → c = c'
  rows : ∀ r ∈ s.revoked, ∃ c ∈ s.signed, c.jti = some r.jti ∧ c.exp = r.expiresAt
  purging : ∀ keys, s.purging = some keys → ∀ jti ∈ keys,
    ∃ c ∈ s.signed, c.jti = some jti ∧ c.exp < s.now
  phases : ∀ i, s.PhaseOk (s.logouts i)

variable {s s' : AccessState τ} {i : τ} {token : Claims} {row : RevokedToken}
  {phase : LogoutPhase}

section Static

omit [DecidableEq τ]

theorem decodeAccessToken_eq_ok {payload : Claims}
    (h : s.decodeAccessToken token = .ok payload) :
    payload = token ∧ token ∈ s.signed ∧ s.now < token.exp := by
  simp only [decodeAccessToken] at h
  split at h
  · cases h
  next hsigned =>
  split at h
  · cases h
  next hexp =>
  cases h
  exact ⟨rfl, Decidable.not_not.mp hsigned, Int.not_le.mp hexp⟩

/-- **A token that is out does not pass**, in either service. -/
theorem Out.not_authenticated (h : s.Out token) (users : KeyedTable AuthUser.id) :
    (∀ user, s.getCurrentUser users (some token) ≠ .ok user) ∧
      ∀ userId, s.getCurrentUserId users (some token) ≠ .ok userId := by
  rcases hdec : s.decodeAccessToken token with message | payload
  · simp [getCurrentUser, getCurrentUserId, hdec]
  obtain ⟨rfl, -, hexp⟩ := decodeAccessToken_eq_ok hdec
  obtain hout | ⟨jti, hjti, hkey⟩ := h
  · exact absurd hout (Int.not_lt.mpr (Int.le_of_lt hexp))
  have hrev : s.jtiRevoked payload = true := by
    simp only [jtiRevoked, hjti]
    exact decide_eq_true hkey
  refine ⟨fun user => ?_, fun userId => ?_⟩
  · simp [getCurrentUser, hdec, hrev]
  · rcases hsub : payload.sub with _ | id
    · simp [getCurrentUserId, hdec, hsub]
    · simp [getCurrentUserId, hdec, hsub, hrev]

theorem Out.mono (h : s.Out token) (hnow : s.now ≤ s'.now)
    (hkeys : ∀ jti, s.revoked.HasKey jti → s'.revoked.HasKey jti) : s'.Out token := by
  obtain hexp | ⟨jti, hjti, hkey⟩ := h
  · exact Or.inl (Int.lt_of_lt_of_le hexp hnow)
  · exact Or.inr ⟨jti, hjti, hkeys jti hkey⟩

theorem PhaseOk.mono (h : s.PhaseOk phase) (hsub : ∀ c ∈ s.signed, c ∈ s'.signed)
    (hout : ∀ c ∈ s.signed, s.Out c → s'.Out c) : s'.PhaseOk phase := by
  cases phase with
  | decoded token row => exact ⟨hsub _ h.1, h.2⟩
  | inserted token row => exact ⟨hsub _ h.1, h.2⟩
  | kept token => exact ⟨hsub _ h.1, hout _ h.1 h.2⟩
  | committed revoked =>
    cases revoked with
    | none => trivial
    | some token => exact ⟨hsub _ h.1, hout _ h.1 h.2⟩
  | _ => trivial

/-- What `_revoke_access_token` has to insert is the `jti` and the expiry of the token it was
given. -/
theorem phaseOk_revokeAccessToken : s.PhaseOk (s.revokeAccessToken token) := by
  rcases hdec : s.decodeAccessToken token with message | payload
  · simp only [revokeAccessToken, hdec]
    trivial
  obtain ⟨rfl, hsigned, -⟩ := decodeAccessToken_eq_ok hdec
  rcases hjti : payload.jti with _ | jti
  · simp only [revokeAccessToken, hdec, hjti]
    trivial
  · simp only [revokeAccessToken, hdec, hjti]
    exact ⟨hsigned, hjti, rfl⟩

theorem recorded_start {now : Timestamp} : Recorded (start now : AccessState τ) :=
  ⟨fun c hc => (by cases hc), fun r hr => absurd hr KeyedTable.not_mem_empty,
    fun keys hk => (by cases hk), fun _ => trivial⟩

theorem Recorded.advance (h : Recorded s) {time : Timestamp} (ht : s.now ≤ time) :
    Recorded { s with now := time } := by
  refine ⟨h.unique, h.rows, fun keys hk jti hjti => ?_, fun i => ?_⟩
  · obtain ⟨c, hc, hcj, hexp⟩ := h.purging keys hk jti hjti
    exact ⟨c, hc, hcj, Int.lt_of_lt_of_le hexp ht⟩
  · exact (h.phases i).mono (fun _ hc => hc) fun _ _ ho => ho.mono ht fun _ hk => hk

theorem Recorded.issue (h : Recorded s) {userId jti : UUID}
    (hnew : ∀ c ∈ s.signed, c.jti ≠ some jti) :
    Recorded { s with signed := encodeAccessToken s.now userId jti :: s.signed } := by
  refine ⟨fun c hc c' hc' heq => ?_, fun r hr => ?_, fun keys hk jti' hjti => ?_, fun i => ?_⟩
  · obtain rfl | hc := List.mem_cons.mp hc
    · obtain rfl | hc' := List.mem_cons.mp hc'
      · rfl
      · exact absurd heq.symm (hnew c' hc')
    · obtain rfl | hc' := List.mem_cons.mp hc'
      · exact absurd heq (hnew c hc)
      · exact h.unique c hc c' hc' heq
  · obtain ⟨c, hc, hrest⟩ := h.rows r hr
    exact ⟨c, List.mem_cons_of_mem _ hc, hrest⟩
  · obtain ⟨c, hc, hrest⟩ := h.purging keys hk jti' hjti
    exact ⟨c, List.mem_cons_of_mem _ hc, hrest⟩
  · exact (h.phases i).mono (fun _ hc => List.mem_cons_of_mem _ hc)
      fun _ _ ho => ho.mono (Int.le_refl _) fun _ hk => hk

/-- The rows a purge finds have expired, by the clock of the database. -/
theorem Recorded.purgeStart (h : Recorded s) :
    Recorded { s with purging := some s.expired } := by
  refine ⟨h.unique, h.rows, fun keys hk jti hjti => ?_, fun i => ?_⟩
  · obtain rfl := Option.some.inj hk
    obtain ⟨r, hr, rfl⟩ := List.mem_map.mp hjti
    obtain ⟨hr, hexp⟩ := List.mem_filter.mp hr
    obtain ⟨c, hc, hcj, hce⟩ := h.rows r hr
    exact ⟨c, hc, hcj, hce ▸ of_decide_eq_true hexp⟩
  · exact (h.phases i).mono (fun _ hc => hc) fun _ _ ho => ho.mono (Int.le_refl _) fun _ hk => hk

/-- What a purge deletes stays out: its token has expired. -/
theorem Recorded.purgeEnd (h : Recorded s) {keys : List UUID} (hkeys : s.purging = some keys) :
    Recorded { s with
      revoked := s.revoked.deleteWhere fun r => decide (r.jti ∈ keys)
      purging := none } := by
  refine ⟨h.unique, fun r hr => h.rows r (KeyedTable.mem_deleteWhere.mp hr).1,
    fun keys hk => (by cases hk), fun i => ?_⟩
  refine (h.phases i).mono (fun _ hc => hc) fun token htoken hout => ?_
  obtain hexp | ⟨jti, hjti, r, hr, rfl⟩ := hout
  · exact Or.inl hexp
  by_cases hk : r.jti ∈ keys
  · obtain ⟨c, hc, hcj, hexp⟩ := h.purging keys hkeys r.jti hk
    obtain rfl := h.unique c hc token htoken (hcj.trans hjti.symm)
    exact Or.inl hexp
  · exact Or.inr ⟨r.jti, hjti, r,
      KeyedTable.mem_deleteWhere.mpr ⟨hr, decide_eq_false hk⟩, rfl⟩

end Static

/-- A logout moves on, and the tables stay as they are. -/
theorem Recorded.goto (h : Recorded s) (hphase : s.PhaseOk phase) (uncommitted : UUID → Option τ) :
    Recorded { s.goto i phase with uncommitted := uncommitted } := by
  refine ⟨h.unique, h.rows, h.purging, fun j => ?_⟩
  have hmono : ∀ {p : LogoutPhase}, s.PhaseOk p →
      PhaseOk { s.goto i phase with uncommitted := uncommitted } p := fun hp =>
    hp.mono (fun _ hc => hc) fun _ _ ho => ho.mono (Int.le_refl _) fun _ hk => hk
  by_cases hj : j = i
  · subst hj
    apply hmono
    simp only [AccessState.goto, Function.update_self]
    exact hphase
  · simp only [AccessState.goto, Function.update_of_ne hj]
    exact hmono (h.phases j)

/-- The commit of a row: the token of the logout is recorded. -/
theorem Recorded.commit (h : Recorded s) (hphase : s.logouts i = .inserted token row) :
    Recorded { s.finish i (.committed (some token)) with
      revoked := s.revoked.insertIgnore row } := by
  obtain ⟨hsigned, hjti, hexp⟩ : s.PhaseOk (.inserted token row) := hphase ▸ h.phases i
  have hkeys : ∀ jti, s.revoked.HasKey jti → (s.revoked.insertIgnore row).HasKey jti :=
    fun jti hk => KeyedTable.hasKey_insertIgnore.mpr (Or.inl hk)
  refine ⟨h.unique, fun r hr => ?_, h.purging, fun j => ?_⟩
  · obtain hr | rfl := KeyedTable.mem_of_mem_insertIgnore hr
    · exact h.rows r hr
    · exact ⟨token, hsigned, hjti, hexp⟩
  · by_cases hj : j = i
    · subst hj
      simp only [AccessState.finish, AccessState.goto, Function.update_self]
      exact ⟨hsigned, Or.inr ⟨row.jti, hjti, KeyedTable.hasKey_insertIgnore.mpr (Or.inr rfl)⟩⟩
    · simp only [AccessState.finish, AccessState.goto, Function.update_of_ne hj]
      exact (h.phases j).mono (fun _ hc => hc) fun _ _ ho => ho.mono (Int.le_refl _) hkeys

theorem Recorded.insertRow (h : Recorded s) (hphase : s.logouts i = .decoded token row)
    (hs : s.insertRow i token row = some s') : Recorded s' := by
  have hrow : s.PhaseOk (.decoded token row) := hphase ▸ h.phases i
  simp only [AccessState.insertRow] at hs
  split at hs
  · next hkey =>
    obtain rfl := Option.some.inj hs
    have hkept : s.PhaseOk (.kept token) := ⟨hrow.1, Or.inr ⟨row.jti, hrow.2.1, hkey⟩⟩
    exact h.goto hkept _
  split at hs
  · cases hs
  · obtain rfl := Option.some.inj hs
    have hinserted : s.PhaseOk (.inserted token row) := hrow
    exact h.goto hinserted _

/-- **A step** of the system keeps the invariant, whoever moves. -/
theorem Recorded.step (h : Recorded s) {l : Label τ} (hl : s.DrawsFresh l)
    (hs : s.step l = some s') : Recorded s' := by
  cases l with
  | advance time =>
    simp only [AccessState.step] at hs
    split at hs
    · next ht =>
      obtain rfl := Option.some.inj hs
      exact h.advance ht
    · cases hs
  | issue userId jti =>
    obtain rfl := Option.some.inj hs
    exact h.issue hl
  | decode i token =>
    simp only [AccessState.step] at hs
    split at hs
    · obtain rfl := Option.some.inj hs
      exact h.goto phaseOk_revokeAccessToken _
    · cases hs
  | insert i =>
    simp only [AccessState.step] at hs
    split at hs
    · next token row hphase => exact h.insertRow hphase hs
    · cases hs
  | commit i =>
    simp only [AccessState.step] at hs
    split at hs
    · next token row hphase =>
      obtain rfl := Option.some.inj hs
      exact h.commit hphase
    · next token hphase =>
      obtain rfl := Option.some.inj hs
      -- the `jti` was revoked already: what the phase says of it still holds at the commit
      have hkept : s.PhaseOk (.kept token) := hphase ▸ h.phases i
      have hcommitted : s.PhaseOk (.committed (some token)) := hkept
      exact h.goto hcommitted _
    · obtain rfl := Option.some.inj hs
      have hcommitted : s.PhaseOk (.committed none) := trivial
      exact h.goto hcommitted _
    · cases hs
  | abort i =>
    simp only [AccessState.step] at hs
    split at hs
    · cases hs
    · cases hs
    · obtain rfl := Option.some.inj hs
      have haborted : s.PhaseOk .aborted := trivial
      exact h.goto haborted _
  | purgeStart =>
    simp only [AccessState.step] at hs
    split at hs
    · obtain rfl := Option.some.inj hs
      exact h.purgeStart
    · cases hs
  | purgeEnd =>
    simp only [AccessState.step] at hs
    split at hs
    · cases hs
    · next keys hkeys =>
      obtain rfl := Option.some.inj hs
      exact h.purgeEnd hkeys

omit [DecidableEq τ] in
theorem Recorded.revokedOut (h : Recorded s) : s.RevokedOut := by
  intro i token hphase users
  have hout : s.PhaseOk (.committed (some token)) := hphase ▸ h.phases i
  exact hout.2.not_authenticated users

/-- **A revoked access token never authenticates again**: in every run of logins, refreshes,
logouts, purges and clock advances, in any order and at any times, in every state after the commit
of a logout that has decoded a token, a request with the token is rejected by the API and by
ingestion, if no `jti` is drawn twice. -/
theorem revoked_never_authenticates (now : Timestamp) (labels : List (Label τ))
    (hfresh : Along step DrawsFresh (start now) labels) :
    Always step RevokedOut (start now : AccessState τ) labels :=
  always_of_along (fun _ _ _ h hl hs => h.step hl hs) (fun _ h => h.revokedOut)
    recorded_start hfresh

/-- A session of an hour: login, logout, a purge while the token lives and one after. -/
def sampleHour : List (Label Unit) :=
  [.issue 1 7, .advance (60 * second), .decode () (encodeAccessToken 0 1 7), .insert (),
    .commit (), .purgeStart, .purgeEnd, .advance (3600 * second), .purgeStart, .purgeEnd]

/-- The run goes through, the row is gone at its end, and the token never passes again. -/
theorem revoked_never_authenticates_hour :
    ((exec step (start 0 : AccessState Unit) sampleHour).map fun s =>
        (s.logouts (), s.revoked.rows)) =
      some (.committed (some (encodeAccessToken 0 1 7)), []) ∧
    Always step RevokedOut (start 0 : AccessState Unit) sampleHour :=
  ⟨by decide +kernel, revoked_never_authenticates 0 sampleHour (by decide +kernel)⟩

end AccessState

end Grosh
