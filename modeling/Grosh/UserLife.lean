import Grosh.ApiSessions

/-!
# The life of a user

Results about the runs of the API, next to any transactions of the ingestion service.

A run is any sequence of requests, each served to its end before the next. What a request does is
put into one of a few effects, by one case analysis, and every result is then an induction over the
run in which only the effects are looked at.

* `users_life` — a user is never lost, and only an admin's deletion deactivates one, for good.
* `deactivated_stays_out` — who has been deactivated never gets in again.
* `admin_remains` — there is always an active admin.
* `credentials_last` — the credentials a user was created with are those that log in.
* `last_active_of_refresh` — only a refresh is an activity; a login is not.
* `settings_last_set` — what was last set is read back.
-/

namespace Grosh

namespace Api

open RowSecurity ApiState

variable {env : ApiEnv} {s s' : ApiState} {l : Label} {ls : List Label} {u : UUID} {r r' : UserRow}
  {db db' : Db TableName.Row}

/-! ## What a step can do

A request of the API runs through its checks and then through the statements row security lets
through. What is left of it is one of a few effects on the users, on their settings and on the
sessions. -/

/-- A row of `users` next to what a transaction of ingestion has made of it: it may write two
columns. -/
def KeptByIngestion (r r' : UserRow) : Prop :=
  r' = { r with
    lastReprocessStartedAt := r'.lastReprocessStartedAt, updatedAt := r'.updatedAt }

/-- The refreshes and the changes of settings that succeed. -/
def accepted (env : ApiEnv) (s : ApiState) : Label → Bool
  | .refresh presented fresh => (s.refresh presented fresh).1.isOk
  | .updateSettings bearer q => (s.updateSettings env bearer q).1.isOk
  | _ => false

/-- Everything a step can do to the tables, one constructor for each kind of request that
succeeds. -/
inductive Effect (env : ApiEnv) (s : ApiState) : Label → ApiState → Prop where
  /-- no row of the tables with row-level security is written, and no session opened -/
  | quiet (l : Label) (s' : ApiState) : s'.db = s.db → (∀ t ∈ s'.tokens, t ∈ s.tokens) →
      accepted env s l = false → Effect env s l s'
  | ingestion (session : Session) (program : Program TableName.Row Unit) (db' : Db TableName.Row) :
      List.Forall₂ KeptByIngestion (s.db .users) (db' .users) →
      db' .userSettings = s.db .userSettings → Admissible db' →
      Effect env s (.ingestion session program) { s with db := db' }
  | login (email password : String) (fresh : FreshSession) (r : UserRow) :
      rowOfEmail s.db email.toLower = some r → r.isActive = true →
      Effect env s (.login email password fresh) (s.opened r.id fresh)
  | refresh (presented : Option String) (fresh : FreshSession) (token : RefreshTokenRow) :
      token ∈ s.tokens → isAuthenticated s.db token.userId = true →
      (s.refresh presented fresh).1 = .ok (encodeAccessToken s.now token.userId fresh.jti) →
      Effect env s (.refresh presented fresh)
        { (s.without fun r => decide (r.id = token.id)).opened token.userId fresh with
          db := setRow s.db token.userId (UserRepo.touched s.now) }
  | createUser (bearer : Option Claims) (q : CreateUserRequest) (admin : UserRow) :
      s.requireAdmin bearer = .ok admin → q.newId ∉ userIds s.db →
      rowOfEmail s.db q.email.toLower = none →
      Effect env s (.createUser bearer q) { s with db := withUser s.db (q.row s.now) }
  | deleteUser (bearer : Option Claims) (targetId : UUID) (admin : UserRow) :
      s.requireAdmin bearer = .ok admin → admin.id ≠ targetId →
      Effect env s (.deleteUser bearer targetId)
        { s.without fun r => decide (r.userId = targetId) with
          db := setRow s.db targetId (UserRepo.flagged false s.now) }
  | updateSettings (bearer : Option Claims) (q : UpdateSettingsRequest) (user : UserRow)
      (db' : Db TableName.Row) : s.getCurrentUser bearer = .ok user →
      Upserted user.id (settingsAfter user.id q.defaultRateSource q.timezone s.now
        (settingsOf s.db user.id)) s.db db' →
      (s.updateSettings env bearer q).1 = .ok (.ofRow (settingsAfter user.id q.defaultRateSource
        q.timezone s.now (settingsOf s.db user.id))) →
      Effect env s (.updateSettings bearer q) { s with db := db' }

/-- A refused request leaves the state as it was. -/
theorem Effect.refused (h : accepted env s l = false) : Effect env s l s :=
  .quiet l s rfl (fun _ ht => ht) h

/-- A transaction of ingestion keeps the users and their settings. -/
theorem effect_ingestion (h : Admissible s.db) (session : Session)
    (program : Program TableName.Row Unit) :
    Effect env s (.ingestion session program) (s.step env (.ingestion session program)) := by
  simp only [step]
  rcases he : program.eval schema { session with dbRole := .ingestion } s.db with _ | ⟨_, db'⟩
  · exact .refused rfl
  have hcolumns : ∀ r r' : UserRow,
      schema.columns { session with dbRole := .ingestion } .users r r' = true →
        KeptByIngestion r r' := fun r r' hc =>
    of_decide_eq_true (p := r' = { r with
      lastReprocessStartedAt := r'.lastReprocessStartedAt, updatedAt := r'.updatedAt }) hc
  refine .ingestion session program db' ?_ ?_ ?_
  · refine Program.forall₂_eval (t := .users) (P := KeptByIngestion) (fun r => rfl)
      (fun r₁ r₂ r₃ h₁ h₂ => ?_) rfl rfl (fun r r' _ hc => hcolumns r r' hc) he
    rw [KeptByIngestion, h₂, h₁]
  · have hsettings : List.Forall₂ (· = ·) (s.db .userSettings) (db' .userSettings) :=
      Program.forall₂_eval (fun _ => rfl) (fun _ _ _ => Eq.trans) rfl rfl
        (fun r r' hg _ => absurd hg Bool.false_ne_true) he
    rw [List.forall₂_eq_eq_eq] at hsettings
    exact hsettings.symm
  · exact of_decide_eq_true (Program.admissible_eval (decide_eq_true h) he)

theorem effect_login (h : Admissible s.db) (email password : String) (fresh : FreshSession) :
    Effect env s (.login email password fresh) (s.login env email password fresh).2 := by
  rcases hr : rowOfEmail s.db email.toLower with _ | r
  · rw [login_none hr]
    exact .refused rfl
  rw [login_some h hr]
  split
  · next hok =>
    split
    · exact .refused rfl
    · exact .login email password fresh r hr hok.2
  · exact .refused rfl

theorem effect_refresh (h : Admissible s.db) (presented : Option String) (fresh : FreshSession) :
    Effect env s (.refresh presented fresh) (s.refresh presented fresh).2 := by
  have herror : ∀ problem, s.refresh presented fresh = (.error problem, s) →
      Effect env s (.refresh presented fresh) (s.refresh presented fresh).2 := by
    intro problem heq
    rw [heq]
    refine .refused ?_
    simp only [accepted, heq, Except.isOk, Except.toBool]
  rcases ht : s.presentedToken presented with _ | token
  · exact herror _ (refresh_none ht)
  have heq := @refresh_some s fresh h presented token ht
  split at heq
  · exact herror _ heq
  next hok =>
  split at heq
  · exact herror _ heq
  rw [heq]
  exact .refresh presented fresh token (mem_of_presentedToken ht).1
    (Bool.eq_true_of_not_eq_false fun ha => hok (Or.inr ha)) (congrArg Prod.fst heq)

theorem tokens_revokeAccessToken {token : Claims} :
    (s.revokeAccessToken token).tokens = s.tokens ∧ (s.revokeAccessToken token).db = s.db := by
  simp only [revokeAccessToken]
  split <;> exact ⟨rfl, rfl⟩

/-- A logout only deletes refresh tokens and revokes access tokens. -/
theorem quiet_revoked {access : Option Claims} {deleted : ApiState} (hdb : deleted.db = s.db)
    (htokens : ∀ t ∈ deleted.tokens, t ∈ s.tokens) (hl : accepted env s l = false) :
    Effect env s l (access.elim deleted deleted.revokeAccessToken) := by
  cases access with
  | none => exact .quiet l _ hdb htokens hl
  | some token =>
    obtain ⟨ht, hd⟩ := @tokens_revokeAccessToken deleted token
    exact .quiet l _ (hd.trans hdb) (fun t hmem => htokens t (ht ▸ hmem)) hl

theorem mem_of_mem_without {p : RefreshTokenRow → Bool} {t : RefreshTokenRow}
    (ht : t ∈ (s.without p).tokens) : t ∈ s.tokens := (TokenTable.mem_delete.mp ht).1

theorem effect_logout (presented : Option String) (accessToken : Option Claims) :
    Effect env s (.logout presented accessToken) (s.logout presented accessToken) := by
  rw [logout]
  rcases s.presentedToken presented with _ | token
  · exact quiet_revoked rfl (fun _ ht => ht) rfl
  · exact quiet_revoked rfl (fun _ ht => mem_of_mem_without ht) rfl

theorem effect_logoutAll (bearer : Option Claims) :
    Effect env s (.logoutAll bearer) (s.logoutAll bearer).2 := by
  rw [logoutAll]
  rcases s.getCurrentUser bearer with problem | user
  · exact .refused rfl
  · exact quiet_revoked rfl (fun _ ht => mem_of_mem_without ht) rfl

theorem effect_createUser (h : Admissible s.db) (bearer : Option Claims) (q : CreateUserRequest) :
    Effect env s (.createUser bearer q) (s.createUser bearer q).2 := by
  rcases hadmin : s.requireAdmin bearer with problem | admin
  · rw [createUser, hadmin]
    exact .refused rfl
  rw [createUser_admin h hadmin]
  split
  · next hfree => exact .createUser bearer q admin hadmin hfree.1 hfree.2
  · exact .refused rfl

theorem effect_deleteUser (h : Admissible s.db) (bearer : Option Claims) (targetId : UUID) :
    Effect env s (.deleteUser bearer targetId) (s.deleteUser bearer targetId).2 := by
  rcases hadmin : s.requireAdmin bearer with problem | admin
  · rw [deleteUser, hadmin]
    exact .refused rfl
  rw [deleteUser_admin h hadmin]
  split
  · exact .refused rfl
  next hself =>
  split
  · exact .refused rfl
  · exact .deleteUser bearer targetId admin hadmin hself

theorem effect_updateSettings (h : Admissible s.db) (bearer : Option Claims)
    (q : UpdateSettingsRequest) :
    Effect env s (.updateSettings bearer q) (s.updateSettings env bearer q).2 := by
  have herror : ∀ problem, s.updateSettings env bearer q = (.error problem, s) →
      Effect env s (.updateSettings bearer q) (s.updateSettings env bearer q).2 := by
    intro problem heq
    rw [heq]
    refine .refused ?_
    simp only [accepted, heq, Except.isOk, Except.toBool]
  rcases hc : s.getCurrentUser bearer with problem | user
  · apply herror problem
    rw [updateSettings, hc]
  rcases hq : q.problem env with _ | problem
  · obtain ⟨db', heq, hup⟩ := updateSettings_user h hc hq
    rw [heq]
    exact .updateSettings bearer q user db' hc hup (congrArg Prod.fst heq)
  · apply herror problem
    rw [updateSettings, hc]
    simp only [hq]

/-- **Everything a step does is one of the effects.** -/
theorem effect_step (env : ApiEnv) (h : Admissible s.db) (l : Label) :
    Effect env s l (s.step env l) := by
  cases l with
  | advance time => exact .quiet _ _ rfl (fun _ ht => ht) rfl
  | purge => exact .quiet _ _ rfl (fun _ ht => ht) rfl
  | ingestion session program => exact effect_ingestion h session program
  | login email password fresh => exact effect_login h email password fresh
  | refresh presented fresh => exact effect_refresh h presented fresh
  | logout presented accessToken => exact effect_logout presented accessToken
  | logoutAll bearer => exact effect_logoutAll bearer
  | createUser bearer q => exact effect_createUser h bearer q
  | deleteUser bearer targetId => exact effect_deleteUser h bearer targetId
  | updateSettings bearer q => exact effect_updateSettings h bearer q

/-- No step breaks a constraint of the tables. -/
theorem Effect.admissible (he : Effect env s l s') (h : Admissible s.db) : Admissible s'.db := by
  cases he with
  | quiet _ _ hdb => exact hdb ▸ h
  | ingestion session program db' _ _ hadm => exact hadm
  | login => exact h
  | refresh => exact admissible_setRow h fun _ => ⟨rfl, rfl⟩
  | createUser bearer q admin _ hid hnone =>
    exact admissible_withUser h hid ((admissible_append_user h).mpr ⟨hid, hnone⟩)
  | deleteUser => exact admissible_setRow h fun _ => ⟨rfl, rfl⟩
  | updateSettings bearer q user db' _ hup => exact hup.admissible

theorem admissible_run (h : Admissible s.db) : Admissible (run env ls s).db := by
  induction ls generalizing s with
  | nil => exact h
  | cons l ls ih => exact ih ((effect_step env h l).admissible h)

/-! ## The row of a user

What a step makes of one user, read off its effect. -/

theorem id_of_callerRow (hr : callerRow db u = some r) : r.id = u := by
  have hfound : decide (r.id = u) = true := @List.find?_some _ _ r _ hr
  exact of_decide_eq_true hfound

theorem callerRow_eq_some (h : Admissible db) (hr : r ∈ db .users) :
    callerRow db r.id = some r := by
  rcases hfind : callerRow db r.id with _ | r'
  · exact absurd (decide_eq_true rfl) (List.find?_eq_none.mp hfind r hr)
  · have hmem : r' ∈ db .users := List.mem_of_find?_eq_some hfind
    exact congrArg some (List.inj_on_of_nodup_map h.userIds hmem hr (id_of_callerRow hfind))

theorem callerRow_setRow {f : UserRow → UserRow} (hf : ∀ r, (f r).id = r.id) {v : UUID} :
    callerRow (setRow db u f) v = (callerRow db v).map fun r => if r.id = u then f r else r := by
  have hid : ∀ r : UserRow, (if r.id = u then f r else r).id = r.id := by
    intro r
    split
    · exact hf r
    · rfl
  rw [callerRow, setRow, withUsers_users, List.find?_map, callerRow]
  refine congrArg (Option.map _) (congrArg (fun p => List.find? p (db .users)) ?_)
  exact funext fun r => congrArg (fun x => decide (x = v)) (hid r)

theorem callerRow_withUser {v : UUID} :
    callerRow (withUser db r) v = (callerRow db v).or (if r.id = v then some r else none) := by
  rw [callerRow, withUser_users, List.find?_append, callerRow]
  by_cases hv : r.id = v <;> simp [hv]

/-- What a transaction of ingestion leaves of a row: it is still the row of the user. -/
theorem callerRow_of_forall₂ (h : List.Forall₂ KeptByIngestion (db .users) (db' .users)) :
    Option.Rel KeptByIngestion (callerRow db u) (callerRow db' u) := by
  simp only [callerRow]
  generalize db .users = rows, db' .users = rows' at h
  induction h with
  | nil => exact .none
  | @cons r r' rows rows' hr _ ih =>
    have hid : r'.id = r.id := by rw [hr]
    by_cases hu : r.id = u
    · simp only [List.find?_cons, hid, hu, decide_true]
      exact .some hr
    · simp only [List.find?_cons, hid, hu, decide_false]
      exact ih

/-- The request refreshes a session of the user. -/
def refreshes (s : ApiState) (u : UUID) : Label → Bool
  | .refresh presented fresh => (s.refresh presented fresh).1.toOption.any fun claims =>
      decide (claims.sub = some u)
  | _ => false

/-- The request is the deletion of the user by an active admin, who is another. -/
def Deactivates (s : ApiState) (u : UUID) (l : Label) : Prop :=
  ∃ bearer admin, l = .deleteUser bearer u ∧ s.requireAdmin bearer = .ok admin ∧ admin.id ≠ u

/-- What becomes of a row in a step: some columns never change, and the others only by requests that
may change them. -/
structure RowStep (s : ApiState) (l : Label) (r r' : UserRow) : Prop where
  same : r' = { r with
    isActive := r'.isActive, updatedAt := r'.updatedAt, lastActiveAt := r'.lastActiveAt
    lastReprocessStartedAt := r'.lastReprocessStartedAt }
  active : r'.isActive = r.isActive ∨ r'.isActive = false ∧ Deactivates s r.id l
  lastActive : r'.lastActiveAt = if refreshes s r.id l then some s.now else r.lastActiveAt

theorem RowStep.refl (h : refreshes s r.id l = false) : RowStep s l r r :=
  ⟨rfl, Or.inl rfl, by simp [h]⟩

theorem refreshes_of_quiet (h : accepted env s l = false) : refreshes s u l = false := by
  cases l <;> try rfl
  next presented fresh =>
  simp only [accepted, refreshes] at h ⊢
  rcases hres : (s.refresh presented fresh).1 with problem | claims
  · rfl
  · simp [hres, Except.isOk, Except.toBool] at h

/-- A row is kept, and changed as its own requests and the admins' say. -/
theorem Effect.rowStep (he : Effect env s l s') (hr : callerRow s.db u = some r) :
    ∃ r', callerRow s'.db u = some r' ∧ RowStep s l r r' := by
  obtain rfl := id_of_callerRow hr
  cases he with
  | quiet _ _ hdb _ hquiet => exact ⟨r, hdb ▸ hr, .refl (refreshes_of_quiet hquiet)⟩
  -- the ingestion role changes two timestamps of a user and nothing else
  | ingestion session program db' hrows _ _ =>
    have hrel := @callerRow_of_forall₂ r.id _ _ hrows
    rw [hr] at hrel
    obtain ⟨r', hr', hkept⟩ : ∃ r', callerRow db' r.id = some r' ∧ KeptByIngestion r r' := by
      generalize callerRow db' r.id = found at hrel
      cases hrel with
      | some hkept => exact ⟨_, rfl, hkept⟩
    refine ⟨r', hr', ?_, Or.inl ?_, ?_⟩
    · rw [hkept]
    · rw [hkept]
    · rw [hkept]
      rfl
  | login => exact ⟨r, hr, .refl rfl⟩
  | refresh presented fresh token _ _ hok =>
    have hrow : callerRow (setRow s.db token.userId (UserRepo.touched s.now)) r.id =
        some (if r.id = token.userId then UserRepo.touched s.now r else r) := by
      rw [callerRow_setRow (f := UserRepo.touched s.now) fun _ => rfl, hr, Option.map_some]
    have hrefreshes : refreshes s r.id (.refresh presented fresh) =
        decide (r.id = token.userId) := by
      simp only [refreshes, hok, Except.toOption, Option.any_some, encodeAccessToken,
        Option.some.injEq]
      exact decide_eq_decide.mpr eq_comm
    refine ⟨_, hrow, ?_, Or.inl ?_, ?_⟩
    · split <;> rfl
    · split <;> rfl
    · rw [hrefreshes]
      by_cases hu : r.id = token.userId <;> simp [hu, UserRepo.touched]
  | createUser bearer q admin hadmin hid _ =>
    refine ⟨r, ?_, .refl rfl⟩
    rw [callerRow_withUser, hr, Option.some_or]
  | deleteUser bearer targetId admin hadmin hself =>
    have hrow : callerRow (setRow s.db targetId (UserRepo.flagged false s.now)) r.id =
        some (if r.id = targetId then UserRepo.flagged false s.now r else r) := by
      rw [callerRow_setRow (f := UserRepo.flagged false s.now) fun _ => rfl, hr, Option.map_some]
    refine ⟨_, hrow, ?_, ?_, ?_⟩
    · split <;> rfl
    · split
      -- the caller's own row is flagged: by an administrator, and not by the caller
      · next hid =>
        exact Or.inr ⟨rfl, bearer, admin, congrArg _ hid.symm, hadmin,
          fun heq => hself (heq.trans hid)⟩
      · exact Or.inl rfl
    · split <;> rfl
  | updateSettings bearer q user db' _ hup _ =>
    have hrow : callerRow db' r.id = some r := by
      rw [callerRow, hup.tables .users (by simp)]
      exact hr
    exact ⟨r, hrow, .refl rfl⟩

/-- A row that is new is one an active admin has created in the step. -/
theorem Effect.row_created (he : Effect env s l s') (hr : callerRow s.db u = none)
    (hr' : callerRow s'.db u = some r') : ∃ bearer q admin,
      l = .createUser bearer q ∧ s.requireAdmin bearer = .ok admin ∧ r' = q.row s.now := by
  cases he with
  | quiet _ _ hdb =>
    rw [hdb] at hr'
    cases hr.symm.trans hr'
  | ingestion session program db' hrows _ _ =>
    have hrel := @callerRow_of_forall₂ u _ _ hrows
    rw [hr, show callerRow db' u = some r' from hr'] at hrel
    cases hrel
  | login => cases hr.symm.trans hr'
  | refresh presented fresh token _ _ _ =>
    have hrow : callerRow (setRow s.db token.userId (UserRepo.touched s.now)) u = none := by
      rw [callerRow_setRow (f := UserRepo.touched s.now) fun _ => rfl, hr, Option.map_none]
    cases hrow.symm.trans hr'
  | createUser bearer q admin hadmin _ _ =>
    have hrow : callerRow (withUser s.db (q.row s.now)) u =
        if q.newId = u then some (q.row s.now) else none := by
      rw [callerRow_withUser, hr, Option.none_or]
      rfl
    have hr'' := hrow.symm.trans hr'
    split at hr''
    · exact ⟨bearer, q, admin, rfl, hadmin, (Option.some.inj hr'').symm⟩
    · cases hr''
  | deleteUser bearer targetId admin _ _ =>
    have hrow : callerRow (setRow s.db targetId (UserRepo.flagged false s.now)) u = none := by
      rw [callerRow_setRow (f := UserRepo.flagged false s.now) fun _ => rfl, hr, Option.map_none]
    cases hrow.symm.trans hr'
  | updateSettings bearer q user db' _ hup _ =>
    have hrow : callerRow db' u = none := by
      rw [callerRow, hup.tables .users (by simp)]
      exact hr
    cases hrow.symm.trans hr'

/-! ## Runs

By induction on the labels. What happened in a run is told by where it is split: the labels before,
the one that did it, and those after. -/

/-- In the run an active admin deactivates the user, who is another. -/
def DeactivatedIn (env : ApiEnv) (ls : List Label) (s : ApiState) (u : UUID) : Prop :=
  ∃ before l after, ls = before ++ l :: after ∧ Deactivates (run env before s) u l

theorem DeactivatedIn.cons (h : DeactivatedIn env ls (s.step env l) u) :
    DeactivatedIn env (l :: ls) s u := by
  obtain ⟨before, l', after, rfl, hd⟩ := h
  exact ⟨l :: before, l', after, rfl, hd⟩

/-- What becomes of a row in a run: what has changed was changed by some request of it. -/
structure RowRun (env : ApiEnv) (ls : List Label) (s : ApiState) (r r' : UserRow) : Prop where
  /-- the id, the e-mail, the password, the name, the role and the creation are kept -/
  same : r' = { r with
    isActive := r'.isActive, updatedAt := r'.updatedAt, lastActiveAt := r'.lastActiveAt
    lastReprocessStartedAt := r'.lastReprocessStartedAt }
  /-- a user is not activated again -/
  inactive : r.isActive = false → r'.isActive = false
  /-- only an admin deactivates -/
  active : r.isActive = true → r'.isActive = true ∨ DeactivatedIn env ls s r.id

theorem RowRun.cons {r'' : UserRow} (h : RowStep s l r r')
    (h' : RowRun env ls (s.step env l) r' r'') : RowRun env (l :: ls) s r r'' := by
  have hid : r'.id = r.id := by rw [h.same]
  refine ⟨?_, fun hr => h'.inactive ?_, fun hr => ?_⟩
  · rw [h'.same, h.same]
  · rcases h.active with ha | ⟨ha, -⟩
    · exact ha.trans hr
    · exact ha
  rcases h.active with ha | ⟨-, hd⟩
  · exact (h'.active (ha.trans hr)).imp_right fun hd => (hid ▸ hd).cons
  · exact Or.inr ⟨[], l, ls, rfl, hd⟩

/-- In the run an active admin creates a user, who becomes `r'` in what follows. -/
def CreatedIn (env : ApiEnv) (ls : List Label) (s : ApiState) (r' : UserRow) : Prop :=
  ∃ before bearer q after admin, ls = before ++ .createUser bearer q :: after ∧
    (run env before s).requireAdmin bearer = .ok admin ∧
    RowRun env after ((run env before s).step env (.createUser bearer q))
      (q.row (run env before s).now) r'

theorem CreatedIn.cons (h : CreatedIn env ls (s.step env l) r') : CreatedIn env (l :: ls) s r' := by
  obtain ⟨before, bearer, q, after, admin, rfl, hadmin, hr⟩ := h
  exact ⟨l :: before, bearer, q, after, admin, rfl, hadmin, hr⟩

/-- The row of a user, in every run: it stays, and changes as its requests say. -/
theorem rowRun (env : ApiEnv) (ls : List Label) (h : Admissible s.db)
    (hr : callerRow s.db u = some r) :
    ∃ r', callerRow (run env ls s).db u = some r' ∧ RowRun env ls s r r' := by
  induction ls generalizing s r with
  | nil => exact ⟨r, hr, rfl, id, Or.inl⟩
  | cons l ls ih =>
    have he := effect_step env h l
    obtain ⟨r₁, hr₁, hstep⟩ := he.rowStep hr
    obtain ⟨r', hr', hrun⟩ := ih (he.admissible h) hr₁
    exact ⟨r', hr', .cons hstep hrun⟩

/-- A row that a run ends with was there, or an admin has created it. -/
theorem row_origin (h : Admissible s.db) (hr' : callerRow (run env ls s).db u = some r') :
    (∃ r, callerRow s.db u = some r) ∨ CreatedIn env ls s r' := by
  induction ls generalizing s with
  | nil => exact Or.inl ⟨r', hr'⟩
  | cons l ls ih =>
    have he := effect_step env h l
    rcases hr : callerRow s.db u with _ | r
    swap
    · exact Or.inl ⟨r, rfl⟩
    rcases ih (he.admissible h) hr' with ⟨r₁, hr₁⟩ | hcreated
    · obtain ⟨bearer, q, admin, rfl, hadmin, rfl⟩ := he.row_created hr hr₁
      obtain ⟨r'', hr'', hrun⟩ := rowRun env ls (he.admissible h) hr₁
      obtain rfl := Option.some.inj (hr''.symm.trans hr')
      exact Or.inr ⟨[], bearer, q, ls, admin, rfl, hadmin, hrun⟩
    · exact Or.inr hcreated.cons

/-- **The life of a user**: in every run of the API, whatever the ingestion service executes in
between, a user keeps the id, the e-mail, the password, the name and the role; who is inactive stays
so, and who becomes inactive has been deactivated by another user, an active admin at that time. A
user who is new has been created by an active admin, and has lived on in the same way. -/
theorem users_life (env : ApiEnv) (ls : List Label) (h : Admissible s.db) :
    (∀ r ∈ s.db .users, ∃ r' ∈ (run env ls s).db .users, RowRun env ls s r r') ∧
      ∀ r' ∈ (run env ls s).db .users,
        (∃ r ∈ s.db .users, RowRun env ls s r r') ∨ CreatedIn env ls s r' := by
  refine ⟨fun r hr => ?_, fun r' hr' => ?_⟩
  · obtain ⟨r', hr', hrun⟩ := rowRun env ls h (callerRow_eq_some h hr)
    exact ⟨r', List.mem_of_find?_eq_some hr', hrun⟩
  · have hfound := callerRow_eq_some (admissible_run h) hr'
    refine (row_origin h hfound).imp_left ?_
    rintro ⟨r, hr⟩
    obtain ⟨r'', hr'', hrun⟩ := rowRun env ls h hr
    obtain rfl := Option.some.inj (hr''.symm.trans hfound)
    exact ⟨r, List.mem_of_find?_eq_some hr, hrun⟩

/-- The access token of an admin, signed by the API. -/
def sampleAccess : Claims := encodeAccessToken 0 1 7

/-- An admin who is logged in, and a member who is not. -/
def sampleApi : ApiState where
  now := 0
  signed := [sampleAccess]
  revoked := .empty
  tokens := ⟨[], List.nodup_nil, List.nodup_nil⟩
  db
    | .users => [{ sampleMember 1 "a" with role := .admin }, sampleMember 2 "b"]
    | .userSettings => [⟨1, none, "UTC", 0⟩, ⟨2, none, "UTC", 0⟩]
    | .accounts => []
    | .bankIntegrations => []
    | .transactions => []
    | .categories => []

/-- Passwords in the clear, one source of rates and one time zone. -/
def sampleApiEnv : ApiEnv :=
  ⟨fun password hash => decide (password = hash), ["nbu"], ["Europe/Kyiv"]⟩

/-- A third user, with a capital in the e-mail. -/
def sampleNewUser : CreateUserRequest := ⟨"C", "secret", "", .member, 3⟩

theorem users_life_created : (3 : UUID) ∈ userIds
    (run sampleApiEnv [.createUser (some sampleAccess) sampleNewUser] sampleApi).db ∧
      ∀ r ∈ sampleApi.db .users, ∃ r' ∈
        (run sampleApiEnv [.createUser (some sampleAccess) sampleNewUser] sampleApi).db .users,
          RowRun sampleApiEnv [.createUser (some sampleAccess) sampleNewUser] sampleApi r r' :=
  ⟨by decide +kernel, (users_life sampleApiEnv _ (by decide +kernel)).1⟩

/-! ## Who has been deactivated

A deactivation closes every way in: the sessions are deleted, the row is inactive, and the e-mail is
taken. -/

/-- The user is there, inactive, and has no refresh token. -/
structure OutOf (s : ApiState) (r : UserRow) : Prop where
  row : ∃ r', callerRow s.db r.id = some r' ∧ r'.isActive = false ∧ r'.email = r.email
  tokens : ∀ t ∈ s.tokens, t.userId ≠ r.id

theorem isAuthenticated_of_row (hr : callerRow db u = some r) :
    isAuthenticated db u = r.isActive := by
  rw [isAuthenticated, hr, Option.any_some]

theorem rowOfEmail_mem {email : String} (hr : rowOfEmail db email = some r) :
    r ∈ db .users ∧ sameEmail r.email email = true := by
  have hfound : sameEmail r.email email = true := @List.find?_some _ _ r _ hr
  exact ⟨List.mem_of_find?_eq_some hr, hfound⟩

/-- The e-mails tell the users apart, whatever their case. -/
theorem rowOfEmail_eq_some (h : Admissible db) {email : String} (hr : r ∈ db .users)
    (he : sameEmail r.email email = true) : rowOfEmail db email = some r := by
  rcases hfind : rowOfEmail db email with _ | r'
  · exact absurd he (List.find?_eq_none.mp hfind r hr)
  · obtain ⟨hr', he'⟩ := rowOfEmail_mem hfind
    refine congrArg some (List.inj_on_of_nodup_map h.emails hr' hr ?_)
    exact (of_decide_eq_true he').trans (of_decide_eq_true he).symm

/-- A refresh token that is new belongs to a user who is active. -/
theorem Effect.tokens (he : Effect env s l s') (h : Admissible s.db) {t : RefreshTokenRow}
    (ht : t ∈ s'.tokens) : t ∈ s.tokens ∨ isAuthenticated s.db t.userId = true := by
  cases he with
  | quiet _ _ _ htokens => exact Or.inl (htokens t ht)
  | ingestion => exact Or.inl ht
  | login email password fresh r hr ha =>
    rcases TokenTable.mem_of_mem_insert ht with ht | rfl
    · exact Or.inl ht
    · have hrow := callerRow_eq_some h (rowOfEmail_mem hr).1
      exact Or.inr ((isAuthenticated_of_row hrow).trans ha)
  | refresh presented fresh token _ ha =>
    rcases TokenTable.mem_of_mem_insert ht with ht | rfl
    · exact Or.inl (mem_of_mem_without ht)
    · exact Or.inr ha
  | createUser => exact Or.inl ht
  | deleteUser => exact Or.inl (mem_of_mem_without ht)
  | updateSettings => exact Or.inl ht

theorem OutOf.step (h : OutOf s r) (hadm : Admissible s.db) (he : Effect env s l s') :
    OutOf s' r := by
  obtain ⟨r₁, hr₁, ha, hemail⟩ := h.row
  obtain ⟨r₂, hr₂, hstep⟩ := he.rowStep hr₁
  refine ⟨⟨r₂, hr₂, ?_, ?_⟩, fun t ht hu => ?_⟩
  · rcases hstep.active with hactive | ⟨hactive, -⟩
    · exact hactive.trans ha
    · exact hactive
  · rw [hstep.same, hemail]
  · rcases he.tokens hadm ht with ht | hactive
    · exact h.tokens t ht hu
    · rw [hu, isAuthenticated_of_row hr₁, ha] at hactive
      cases hactive

theorem OutOf.run (h : OutOf s r) (hadm : Admissible s.db) : OutOf (run env ls s) r := by
  induction ls generalizing s with
  | nil => exact h
  | cons l ls ih =>
    have he := effect_step env hadm l
    exact ih (h.step hadm he) (he.admissible hadm)

/-- A deactivation that succeeds leaves the user out. -/
theorem outOf_deleteUser (h : Admissible s.db) {bearer : Option Claims} {targetId : UUID}
    (hok : (s.deleteUser bearer targetId).1 = .ok ()) :
    ∃ r ∈ s.db .users, r.id = targetId ∧ OutOf (s.deleteUser bearer targetId).2 r ∧
      Admissible (s.deleteUser bearer targetId).2.db := by
  rcases hadmin : s.requireAdmin bearer with problem | admin
  · rw [deleteUser, hadmin] at hok
    cases hok
  rw [deleteUser_admin h hadmin] at hok ⊢
  split at hok
  · cases hok
  next hself =>
  split at hok
  · cases hok
  next hsome =>
  obtain ⟨r, hr⟩ := Option.ne_none_iff_exists'.mp hsome
  obtain rfl := id_of_callerRow hr
  rw [if_neg hself, if_neg hsome]
  refine ⟨r, List.mem_of_find?_eq_some hr, rfl,
    ⟨⟨UserRepo.flagged false s.now r, ?_, rfl, rfl⟩, fun t ht hu => ?_⟩,
    admissible_setRow h fun _ => ⟨rfl, rfl⟩⟩
  · rw [callerRow_setRow (f := UserRepo.flagged false s.now) fun _ => rfl, hr, Option.map_some,
      if_pos rfl]
  · exact absurd (decide_eq_true hu) (ne_true_of_eq_false (TokenTable.mem_delete.mp ht).2)

/-- **Who has been deactivated stays out**: in every run after the deletion of a user, no login with
that user's e-mail succeeds, there is no refresh token of the user, no access token lets the user in
again, neither here nor in the ingestion service, and the e-mail cannot be given to another. -/
theorem deactivated_stays_out (env : ApiEnv) (ls : List Label) (h : Admissible s.db)
    {bearer : Option Claims} {targetId : UUID} (hok : (s.deleteUser bearer targetId).1 = .ok ())
    (hrun : Api.run env ls (s.deleteUser bearer targetId).2 = s') :
    ∃ r ∈ s.db .users, r.id = targetId ∧
      (∀ email password fresh, sameEmail r.email email = true →
        s'.login env email password fresh = (.error invalidCredentials, s')) ∧
      (∀ t ∈ s'.tokens, t.userId ≠ targetId) ∧
      (∀ token : Claims, token.sub = some targetId →
        s'.getCurrentUser (some token) = .error notAuthenticated) ∧
      isAuthenticated s'.db targetId = false ∧
      ∀ bearer q admin, sameEmail r.email q.email = true → s'.requireAdmin bearer = .ok admin →
        s'.createUser bearer q = (.error userAlreadyExists, s') := by
  obtain ⟨r, hr, rfl, hout, hadm⟩ := outOf_deleteUser h hok
  obtain rfl := hrun
  have hout' : OutOf (Api.run env ls (s.deleteUser bearer r.id).2) r := hout.run hadm
  have hadm' : Admissible (Api.run env ls (s.deleteUser bearer r.id).2).db := admissible_run hadm
  generalize Api.run env ls (s.deleteUser bearer r.id).2 = s' at hout' hadm'
  obtain ⟨⟨r', hr', ha, hemail⟩, htokens⟩ := hout'
  have hfound : ∀ email, sameEmail r.email email = true →
      rowOfEmail s'.db email.toLower = some r' := fun email he =>
    rowOfEmail_eq_some hadm' (List.mem_of_find?_eq_some hr')
      (hemail ▸ sameEmail_toLower.trans he)
  have hnot : isAuthenticated s'.db r.id = false := (isAuthenticated_of_row hr').trans ha
  refine ⟨r, hr, rfl, fun email password fresh he => ?_, htokens,
    fun token hsub => getCurrentUser_of_not_authenticated hsub hnot, hnot,
    fun bearer q admin he hadmin => ?_⟩
  · rw [login_some hadm' (hfound email he), if_neg (by simp [ha])]
  · rw [createUser_admin hadm' hadmin, if_neg (by simp [hfound q.email he])]

/-- What is tried after the deactivation: a login, and a new user with the same e-mail. Then time
passes. -/
def sampleComeback : List Label :=
  [.login "b" "" ⟨21, "x", 22⟩, .createUser (some sampleAccess) ⟨"B", "", "", .member, 4⟩,
    .advance 5]

/-- A member is deactivated, and tries to come back in vain. -/
theorem deactivated_stays_out_member : ∃ s',
    run sampleApiEnv sampleComeback (sampleApi.deleteUser (some sampleAccess) 2).2 = s' ∧
      s'.login sampleApiEnv "B" "" ⟨23, "y", 24⟩ = (.error invalidCredentials, s') ∧
      isAuthenticated s'.db 2 = false ∧
      s'.createUser (some sampleAccess) ⟨"b", "", "", .member, 4⟩ =
        (.error userAlreadyExists, s') := by
  have hok : (sampleApi.deleteUser (some sampleAccess) 2).1 = .ok () := by decide +kernel
  obtain ⟨r, hr, hid, hlogin, -, -, hnot, hcreate⟩ := deactivated_stays_out sampleApiEnv
    sampleComeback (by decide +kernel : Admissible sampleApi.db) hok rfl
  -- the row is the one of the member
  have hemail : r.email = "b" := by
    have hrows : ∀ r ∈ sampleApi.db .users, r.id = 2 → r.email = "b" := by decide +kernel
    exact hrows r hr hid
  have hadmin : (run sampleApiEnv sampleComeback
      (sampleApi.deleteUser (some sampleAccess) 2).2).requireAdmin (some sampleAccess) =
        .ok { sampleMember 1 "a" with role := .admin } := by decide +kernel
  rw [hemail] at hlogin hcreate
  exact ⟨_, rfl, hlogin _ _ _ (by decide +kernel), hnot,
    hcreate _ _ _ (by decide +kernel) hadmin⟩

/-! ## There is always an admin

An admin cannot be deactivated but by another active admin, and that one stays. -/

/-- There is an admin who is active. -/
def HasAdmin (db : Db TableName.Row) : Prop :=
  ∃ r ∈ db .users, r.role = .admin ∧ r.isActive = true

instance : Decidable (HasAdmin db) := inferInstanceAs (Decidable (∃ r ∈ db .users, _))

/-- No step takes the last active admin away: who deactivates an admin is another one, and
active. -/
theorem HasAdmin.step (h : HasAdmin s.db) (hadm : Admissible s.db) (he : Effect env s l s') :
    HasAdmin s'.db := by
  obtain ⟨r, hr, hrole, ha⟩ := h
  obtain ⟨r', hr', hstep⟩ := he.rowStep (callerRow_eq_some hadm hr)
  rcases hstep.active with hactive | ⟨-, bearer, admin, rfl, hadmin, hself⟩
  · refine ⟨r', List.mem_of_find?_eq_some hr', ?_, hactive.trans ha⟩
    rw [hstep.same, hrole]
  -- the admin who has asked for it is left
  obtain ⟨hc, hadminRole⟩ := of_requireAdmin hadmin
  obtain ⟨-, -, -, hrow, hadminActive⟩ := of_getCurrentUser hc
  obtain ⟨admin', hadmin', hstep'⟩ := he.rowStep hrow
  refine ⟨admin', List.mem_of_find?_eq_some hadmin', ?_, ?_⟩
  · rw [hstep'.same, hadminRole]
  · rcases hstep'.active with hactive | ⟨-, bearer', admin'', hl, -, -⟩
    · exact hactive.trans hadminActive
    · exact absurd (Label.deleteUser.inj hl).2.symm hself

/-- **An admin remains**: the API never deactivates the last active admin, as long as the requests
are served one after another. -/
theorem admin_remains (env : ApiEnv) (ls : List Label) (h : Admissible s.db)
    (hadmin : HasAdmin s.db) :
    HasAdmin (Api.run env ls s).db := by
  induction ls generalizing s with
  | nil => exact hadmin
  | cons l ls ih =>
    have he := effect_step env h l
    exact ih (he.admissible h) (hadmin.step h he)

/-- Two admins who are both logged in. -/
def sampleAdmins : ApiState :=
  { sampleApi with
    signed := [sampleAccess, encodeAccessToken 0 2 8]
    db := withUsers sampleApi.db [{ sampleMember 1 "a" with role := .admin },
      { sampleMember 2 "b" with role := .admin }] }

/-- Each of two admins deactivates the other; the second comes too late. -/
theorem admin_remains_two :
    HasAdmin (run sampleApiEnv [.deleteUser (some sampleAccess) 2,
      .deleteUser (some (encodeAccessToken 0 2 8)) 1] sampleAdmins).db :=
  admin_remains sampleApiEnv [.deleteUser (some sampleAccess) 2,
    .deleteUser (some (encodeAccessToken 0 2 8)) 1] (by decide +kernel)
    ⟨_, List.mem_cons_self .., rfl, rfl⟩

/-! ## Credentials

The password hash and the e-mail are written once, with the row. So a login depends on nothing else
but whether the user is active. -/

/-- **Credentials last**: a user who has been created logs in with the e-mail, in whatever case, and
the password of the creation, and with no other password, in every later state; unless another
active admin has deactivated the user, and then with none. -/
theorem credentials_last (env : ApiEnv) (ls : List Label) (h : Admissible s.db)
    {bearer : Option Claims} {q : CreateUserRequest} {record : UserRow}
    (hok : (s.createUser bearer q).1 = .ok record)
    (hrun : Api.run env ls (s.createUser bearer q).2 = s') {email : String}
    (he : sameEmail email q.email = true) (password : String) (fresh : FreshSession)
    (hfresh : ¬ s'.tokens.Clash (fresh.token q.newId s'.now)) :
    (s'.login env email password fresh).1 =
        (if env.verifyPassword password q.passwordHash ∧ isAuthenticated s'.db q.newId then
          .ok (encodeAccessToken s'.now q.newId fresh.jti) else .error invalidCredentials) ∧
      (isAuthenticated s'.db q.newId = true ∨
        DeactivatedIn env ls (s.createUser bearer q).2 q.newId) := by
  rcases hadmin : s.requireAdmin bearer with problem | admin
  · rw [createUser, hadmin] at hok
    cases hok
  have hcreate := createUser_admin h hadmin (q := q)
  split at hcreate
  swap
  · rw [hcreate] at hok
    cases hok
  next hfree =>
  have hadm : Admissible (s.createUser bearer q).2.db := by
    rw [hcreate]
    exact admissible_withUser h hfree.1 ((admissible_append_user h).mpr hfree)
  have hrow : callerRow (s.createUser bearer q).2.db q.newId = some (q.row s.now) := by
    rw [hcreate, callerRow_withUser]
    have hnone : callerRow s.db q.newId = none := by
      rw [callerRow, List.find?_eq_none]
      intro r hr hid
      exact hfree.1 (List.mem_map.mpr ⟨r, hr, of_decide_eq_true hid⟩)
    rw [hnone, Option.none_or]
    exact if_pos rfl
  obtain rfl := hrun
  obtain ⟨r', hr', hlife⟩ := rowRun env ls hadm hrow
  have hadm' : Admissible (Api.run env ls (s.createUser bearer q).2).db := admissible_run hadm
  have hsame : sameEmail r'.email email.toLower = true := by
    rw [sameEmail_toLower, hlife.same]
    apply decide_eq_true
    exact (toLower_toLower q.email).trans (of_decide_eq_true he).symm
  have hfound := rowOfEmail_eq_some hadm' (List.mem_of_find?_eq_some hr') hsame
  have hid : r'.id = q.newId := id_of_callerRow hr'
  have hhash : r'.passwordHash = q.passwordHash := by rw [hlife.same]; rfl
  have hauth : isAuthenticated (Api.run env ls (s.createUser bearer q).2).db q.newId =
      r'.isActive := isAuthenticated_of_row hr'
  refine ⟨?_, ?_⟩
  · rw [login_some hadm' hfound, hid, hhash, if_neg hfresh, hauth]
    split <;> rfl
  · rw [hauth]
    exact hlife.active rfl

/-- The user who was created logs in, and time passes. -/
def sampleLogins : List Label := [.login "C" "secret" ⟨21, "x", 22⟩, .advance 5]

/-- The state after a creation and a run that follows it. -/
def sampleCreated (ls : List Label) : ApiState :=
  run sampleApiEnv ls (sampleApi.createUser (some sampleAccess) sampleNewUser).2

theorem sampleCreated_logins : (sampleCreated sampleLogins).now = 5 ∧
    isAuthenticated (sampleCreated sampleLogins).db 3 = true ∧
    ¬ (sampleCreated sampleLogins).tokens.Clash (FreshSession.token ⟨25, "z", 26⟩ 3 5) := by
  decide +kernel

theorem sampleCreated_deleted :
    isAuthenticated (sampleCreated [.deleteUser (some sampleAccess) 3]).db 3 = false ∧
    ¬ (sampleCreated [.deleteUser (some sampleAccess) 3]).tokens.Clash (FreshSession.token
      ⟨25, "z", 26⟩ 3 (sampleCreated [.deleteUser (some sampleAccess) 3]).now) := by
  decide +kernel

/-- After another login the user logs in with the password, and not with another; and not at all
once the admin has deactivated the user. -/
theorem credentials_last_created :
    ((sampleCreated sampleLogins).login sampleApiEnv "c" "secret" ⟨25, "z", 26⟩).1 =
      .ok (encodeAccessToken 5 3 26) ∧
    ((sampleCreated sampleLogins).login sampleApiEnv "c" "wrong" ⟨25, "z", 26⟩).1 =
      .error invalidCredentials ∧
    ((sampleCreated [.deleteUser (some sampleAccess) 3]).login sampleApiEnv "c" "secret"
      ⟨25, "z", 26⟩).1 = .error invalidCredentials := by
  have hok : (sampleApi.createUser (some sampleAccess) sampleNewUser).1 =
      .ok (sampleNewUser.row 0) := by decide +kernel
  have hafter := fun ls => @credentials_last sampleApi (sampleCreated ls) sampleApiEnv ls
    (by decide +kernel) _ _ _ hok rfl "c" (by decide +kernel)
  obtain ⟨hnow, hin, hfresh⟩ := sampleCreated_logins
  obtain ⟨hout, hfresh'⟩ := sampleCreated_deleted
  refine ⟨?_, ?_, ?_⟩
  · have hlogin := (hafter sampleLogins "secret" ⟨25, "z", 26⟩ (hnow.symm ▸ hfresh)).1
    rw [if_pos ⟨rfl, hin⟩, hnow] at hlogin
    exact hlogin
  · have hlogin := (hafter sampleLogins "wrong" ⟨25, "z", 26⟩ (hnow.symm ▸ hfresh)).1
    rw [if_neg fun h => absurd h.1 (by decide)] at hlogin
    exact hlogin
  · have hlogin := (hafter [.deleteUser (some sampleAccess) 3] "secret" ⟨25, "z", 26⟩ hfresh').1
    rw [if_neg fun h => absurd (hout.symm.trans h.2) Bool.false_ne_true] at hlogin
    exact hlogin

/-! ## Activity

The column `last_active_at` is written by the refresh of a session. The update a login makes of it
does not reach the row, which row security keeps from a session that has only an e-mail set. -/

/-- The time of the last refresh of the user in a run, or else `last`. -/
def lastRefresh (env : ApiEnv) (u : UUID) : List Label → ApiState → Option Timestamp →
    Option Timestamp
  | [], _, last => last
  | l :: ls, s, last =>
    lastRefresh env u ls (s.step env l) (if refreshes s u l then some s.now else last)

/-- **Only a refresh is an activity**: in every run the `last_active_at` of a user is the time of
the last refresh that has succeeded; the logins in between are not seen. -/
theorem last_active_of_refresh (env : ApiEnv) (ls : List Label) (h : Admissible s.db)
    (hr : r ∈ s.db .users) : ∃ r' ∈ (Api.run env ls s).db .users, r'.id = r.id ∧
      r'.lastActiveAt = lastRefresh env r.id ls s r.lastActiveAt := by
  have hrow := callerRow_eq_some h hr
  clear hr
  generalize r.id = u at hrow
  induction ls generalizing s r with
  | nil => exact ⟨r, List.mem_of_find?_eq_some hrow, id_of_callerRow hrow, rfl⟩
  | cons l ls ih =>
    have he := effect_step env h l
    obtain ⟨r₁, hr₁, hstep⟩ := he.rowStep hrow
    obtain ⟨r', hr', hid, hlast⟩ := ih (he.admissible h) hr₁
    refine ⟨r', hr', hid, hlast.trans ?_⟩
    rw [lastRefresh, hstep.lastActive, id_of_callerRow hrow]

theorem last_active_of_refresh_login : ∃ r' ∈
    (run sampleApiEnv [.login "b" "" ⟨21, "x", 22⟩] sampleApi).db .users, r'.id = 2 ∧
      r'.lastActiveAt = none :=
  last_active_of_refresh sampleApiEnv [.login "b" "" ⟨21, "x", 22⟩]
    (by decide +kernel : Admissible sampleApi.db) (List.mem_cons_of_mem _ (List.mem_cons_self ..))

/-! ## Settings

A change may give some of the fields and leave the others out, so each field has its own last
change. -/

/-- The change of the user's settings the request makes, if it succeeds. -/
def settingsChange (env : ApiEnv) (s : ApiState) (u : UUID) : Label → Option UpdateSettingsRequest
  | .updateSettings bearer q =>
    if accepted env s (.updateSettings bearer q) ∧
        (s.getCurrentUser bearer).toOption.map UserRow.id = some u then some q else none
  | _ => none

/-- The changes of the user's settings in a run, the first one first. -/
def settingsChanges (env : ApiEnv) (u : UUID) : List Label → ApiState → List UpdateSettingsRequest
  | [], _ => []
  | l :: ls, s =>
    (settingsChange env s u l).toList ++ settingsChanges env u ls (s.step env l)

/-- What a change makes of the settings: a field it gives is replaced, and the others stay. -/
structure SettingsStep (change : Option UpdateSettingsRequest) (r r' : UserSettingsRow) : Prop where
  defaultRateSource : r'.defaultRateSource =
    (change.bind UpdateSettingsRequest.defaultRateSource).or r.defaultRateSource
  timezone : r'.timezone = (change.bind UpdateSettingsRequest.timezone).getD r.timezone

theorem settingsOf_congr (h : db' .userSettings = db .userSettings) :
    settingsOf db' u = settingsOf db u := by
  rw [settingsOf, h, settingsOf]

theorem settingsOf_setRow {v : UUID} {f : UserRow → UserRow} :
    settingsOf (setRow db v f) u = settingsOf db u :=
  settingsOf_congr (withUsers_of_ne (by simp))

theorem settingsOf_withUser_of_some {x : UserSettingsRow} (hx : settingsOf db u = some x) :
    settingsOf (withUser db r) u = some x := by
  rw [settingsOf, withUser, Function.update_self, List.find?_append]
  rw [settingsOf] at hx
  rw [hx, Option.some_or]

theorem Effect.settingsStep (he : Effect env s l s') {x : UserSettingsRow}
    (hx : settingsOf s.db u = some x) :
    ∃ x', settingsOf s'.db u = some x' ∧ SettingsStep (settingsChange env s u l) x x' := by
  cases he with
  | quiet _ _ hdb _ hquiet =>
    refine ⟨x, hdb ▸ hx, ?_⟩
    have hnone : settingsChange env s u l = none := by
      cases l <;> try rfl
      simp [settingsChange, hquiet]
    rw [hnone]
    exact ⟨rfl, rfl⟩
  | ingestion session program db' _ hsettings _ =>
    exact ⟨x, (settingsOf_congr hsettings).trans hx, rfl, rfl⟩
  | login => exact ⟨x, hx, rfl, rfl⟩
  | refresh => exact ⟨x, settingsOf_setRow.trans hx, rfl, rfl⟩
  | createUser => exact ⟨x, settingsOf_withUser_of_some hx, rfl, rfl⟩
  | deleteUser => exact ⟨x, settingsOf_setRow.trans hx, rfl, rfl⟩
  | updateSettings bearer q user db' hc hup hok =>
    have haccepted : accepted env s (.updateSettings bearer q) = true := by
      rw [accepted, hok]
      rfl
    by_cases hu : user.id = u
    · subst hu
      have hchange : settingsChange env s user.id (.updateSettings bearer q) = some q := by
        simp [settingsChange, haccepted, hc, Except.toOption]
      refine ⟨_, hup.own, ?_⟩
      rw [hchange, hx]
      exact ⟨rfl, rfl⟩
    · have hchange : settingsChange env s u (.updateSettings bearer q) = none := by
        simp [settingsChange, hc, Except.toOption, hu]
      refine ⟨x, (hup.other u fun heq => hu heq.symm).trans hx, ?_⟩
      rw [hchange]
      exact ⟨rfl, rfl⟩

/-- What is set is known: the rate source is configured, and the time zone exists. -/
theorem known_of_settingsChange {q : UpdateSettingsRequest}
    (hq : settingsChange env s u l = some q) :
    (∀ x ∈ q.defaultRateSource, x ∈ env.rateSources) ∧ ∀ z ∈ q.timezone, z ∈ env.zones := by
  cases l with
  | updateSettings bearer q' =>
    simp only [settingsChange] at hq
    split at hq
    swap
    · cases hq
    next hok =>
    cases hq
    have hproblem : q.problem env = none := by
      rcases hp : q.problem env with _ | problem
      · rfl
      have haccepted := hok.1
      rcases hc : s.getCurrentUser bearer with problem' | user <;>
        simp [accepted, updateSettings, hc, hp, Except.isOk, Except.toBool] at haccepted
    rw [UpdateSettingsRequest.problem, Option.or_eq_none_iff] at hproblem
    refine ⟨fun x hx => ?_, fun z hz => ?_⟩
    · have hfilter := hproblem.1
      rw [Option.map_eq_none_iff, Option.filter_eq_none_iff] at hfilter
      simpa using hfilter x hx
    · have hfilter := hproblem.2
      rw [Option.map_eq_none_iff, Option.filter_eq_none_iff] at hfilter
      simpa using hfilter z hz
  | _ => cases hq

/-- The values that were last set, in every run: each field by itself. -/
theorem settingsRun (env : ApiEnv) (ls : List Label) (h : Admissible s.db)
    {x : UserSettingsRow} (hx : settingsOf s.db u = some x) :
    ∃ x', settingsOf (Api.run env ls s).db u = some x' ∧
      x'.defaultRateSource = ((settingsChanges env u ls s).filterMap
        UpdateSettingsRequest.defaultRateSource).getLast?.or x.defaultRateSource ∧
      x'.timezone = ((settingsChanges env u ls s).filterMap
        UpdateSettingsRequest.timezone).getLast?.getD x.timezone := by
  induction ls generalizing s x with
  | nil => exact ⟨x, hx, rfl, rfl⟩
  | cons l ls ih =>
    have he := effect_step env h l
    obtain ⟨x₁, hx₁, hstep⟩ := he.settingsStep hx
    obtain ⟨x', hx', hsource, hzone⟩ := ih (he.admissible h) hx₁
    refine ⟨x', hx', ?_, ?_⟩
    · rw [hsource, hstep.defaultRateSource, settingsChanges]
      rcases settingsChange env s u l with _ | q
      · rfl
      · rcases hq : q.defaultRateSource with _ | source <;>
          simp [hq, List.getLast?_cons]
    · rw [hzone, hstep.timezone, settingsChanges]
      rcases settingsChange env s u l with _ | q
      · rfl
      · rcases hq : q.timezone with _ | zone <;> simp [hq, List.getLast?_cons]

/-- Every change in a run is of known values, since the others are refused. -/
theorem known_of_mem_settingsChanges {q : UpdateSettingsRequest}
    (hq : q ∈ settingsChanges env u ls s) :
    (∀ x ∈ q.defaultRateSource, x ∈ env.rateSources) ∧ ∀ z ∈ q.timezone, z ∈ env.zones := by
  induction ls generalizing s with
  | nil => cases hq
  | cons l ls ih =>
    rcases List.mem_append.mp hq with hq | hq
    · exact known_of_settingsChange (Option.mem_toList.mp hq)
    · exact ih hq

/-- **What was last set is read back**: in every run the settings of a user are, field by field, the
value of the last change of theirs that has succeeded and gives one, and each of these is a rate
source or a time zone that is known. -/
theorem settings_last_set (env : ApiEnv) (ls : List Label) (h : Admissible s.db)
    {x : UserSettingsRow} (hx : settingsOf s.db u = some x) {bearer : Option Claims}
    {user : UserRow}
    (hc : (Api.run env ls s).getCurrentUser bearer = .ok user) (hu : user.id = u) :
    (∃ updatedAt, (Api.run env ls s).getSettings bearer = .ok
      ⟨((settingsChanges env u ls s).filterMap
          UpdateSettingsRequest.defaultRateSource).getLast?.or x.defaultRateSource,
        ((settingsChanges env u ls s).filterMap
          UpdateSettingsRequest.timezone).getLast?.getD x.timezone, some updatedAt⟩) ∧
      ∀ q ∈ settingsChanges env u ls s,
        (∀ x ∈ q.defaultRateSource, x ∈ env.rateSources) ∧ ∀ z ∈ q.timezone, z ∈ env.zones := by
  obtain rfl := hu
  obtain ⟨x', hx', hsource, hzone⟩ := settingsRun env ls h hx
  refine ⟨⟨x'.updatedAt, ?_⟩, fun q hq => known_of_mem_settingsChanges hq⟩
  rw [getSettings_user hc, hx', Option.elim_some, UserSettings.ofRow, hsource, hzone]

theorem settings_last_set_source : ∃ updatedAt,
    (run sampleApiEnv [.updateSettings (some sampleAccess) ⟨some "nbu", none⟩]
      sampleApi).getSettings (some sampleAccess) =
        .ok ⟨some "nbu", "UTC", some updatedAt⟩ := by
  have hc : (run sampleApiEnv [.updateSettings (some sampleAccess) ⟨some "nbu", none⟩]
      sampleApi).getCurrentUser (some sampleAccess) =
        .ok { sampleMember 1 "a" with role := .admin } := by decide +kernel
  have hchanges : settingsChanges sampleApiEnv 1
      [.updateSettings (some sampleAccess) ⟨some "nbu", none⟩] sampleApi =
        [⟨some "nbu", none⟩] := by decide +kernel
  have hset := (settings_last_set sampleApiEnv
    [.updateSettings (some sampleAccess) ⟨some "nbu", none⟩]
    (by decide +kernel : Admissible sampleApi.db)
    (rfl : settingsOf sampleApi.db 1 = some ⟨1, none, "UTC", 0⟩) hc rfl).1
  rw [hchanges] at hset
  exact hset

end Api

end Grosh
