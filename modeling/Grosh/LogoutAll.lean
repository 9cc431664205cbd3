import Grosh.Lib.TransactionLog
import Grosh.RefreshTokens

/-!
# Logging out everywhere

`AuthService.logout_all` is one `DELETE` of the user's refresh tokens. It deletes the rows it has
found when it started, so a token that is committed while it waits for a lock survives it; and a
refresh that has looked its token up before the `DELETE` commits issues a successor all the same,
since nobody looks at how many rows its own `DELETE` found.

* `logoutAll_final_iff` — in a run of any number of refreshes, logins and logouts, every token that
  is stored after a logout of its user descends from a login after it, exactly if no logout of the
  user commits between the lookup and the commit of a refresh, and no row of the user is committed
  that the `DELETE` of a logout has not found.
-/

namespace Grosh

open Transition ReadCommitted

/-! ## The transactions

Three requests that write `refresh_tokens`. The `DELETE` of a logout looks for its rows when it
starts, and waits for those that somebody else has locked; what is inserted meanwhile it does not
see. -/

/-- A login: the user whose email and password it gives (`none` where there is none), the random
id and the hash of the random token it would issue, and its times. -/
structure LoginRequest : Type where
  user : Option UUID
  newId : UUID
  newHash : String
  createdAt : Timestamp
  touchedAt : Timestamp

/-- The token a login issues, as a refresh would that presents none. -/
def LoginRequest.issue (q : LoginRequest) : RefreshRequest :=
  ⟨none, q.newId, q.newHash, q.createdAt, q.createdAt, q.touchedAt⟩

/-- The user of the credentials, and what follows: an unknown or an inactive user is refused. -/
def checkLogin (q : LoginRequest) : Option AuthUser → Program AuthDb AuthKey
  | none => .rollback
  | some user => if user.isActive then createTx q.issue user else .rollback

/-- `AuthService.login` as a transaction: the look-up of the user, and the `INSERT` of a token. -/
def loginTx (q : LoginRequest) : Program AuthDb AuthKey :=
  .read fun db => checkLogin q (q.user.bind fun id => db.users.find? id)

/-- The rows `DELETE FROM refresh_tokens WHERE user_id = $1` finds. -/
def userTokenKeys (userId : UUID) (db : AuthDb) : List AuthKey :=
  (db.tokens.rows.filter fun r => decide (r.userId = userId)).map fun r => .token r.id

/-- `TokenRepo.delete_by_user`, all that `AuthService.logout_all` does to the refresh tokens. -/
def logoutAllTx (userId : UUID) : Program AuthDb AuthKey :=
  .lock false (userTokenKeys userId) fun held _ => .write (deleteTokens held) .commit

/-- What a client asks for: the exchange of a token, a login, or the end of all sessions of a
user. -/
inductive SessionRequest : Type where
  | refresh (q : RefreshRequest)
  | login (q : LoginRequest)
  | logoutAll (userId : UUID)

namespace SessionRequest

/-- The transaction of a request. -/
def tx : SessionRequest → Program AuthDb AuthKey
  | .refresh q => refreshTx q
  | .login q => loginTx q
  | .logoutAll userId => logoutAllTx userId

/-- The token a request would issue; a logout issues none. -/
def issue : SessionRequest → Option RefreshRequest
  | .refresh q => some q
  | .login q => some q.issue
  | .logoutAll _ => none

/-- The random id of the token the request would issue. -/
def newId (q : SessionRequest) : Option UUID := q.issue.map RefreshRequest.newId

/-- The hash of the token the request would issue. -/
def newHash (q : SessionRequest) : Option String := q.issue.map RefreshRequest.newHash

end SessionRequest

/-- Random ids and random tokens: no two requests get the same, and none gets a used one. -/
structure FreshSessions {τ : Type*} (q : τ → SessionRequest) (start : TokenTable) : Prop where
  id_inj : ∀ i j, (q i).newId ≠ none → (q i).newId = (q j).newId → i = j
  hash_inj : ∀ i j, (q i).newHash ≠ none → (q i).newHash = (q j).newHash → i = j
  id_new : ∀ i, ∀ r ∈ start, (q i).newId ≠ some r.id
  hash_new : ∀ i, ∀ r ∈ start, (q i).newHash ≠ some r.tokenHash

/-! ## What is promised, and when it is kept

A token may be exchanged many times after its login, so what a logout ends is a whole descent: every
token that goes back to an earlier login. -/

section Promise

variable {τ : Type*} (q : τ → SessionRequest)

/-- The request is a login of the user. -/
def LogsIn (j : τ) (userId : UUID) : Prop := ∃ x, q j = .login x ∧ x.user = some userId

/-- A token descends from a login: it was issued by it, or in exchange for one that descends
from it. -/
inductive DescendsFromLogin (h : Ledger AuthDb τ) (j : τ) : String → Prop where
  | login (x : LoginRequest) : q j = .login x → h.committed j ≠ none →
      DescendsFromLogin h j x.newHash
  | exchange (i : τ) (x : RefreshRequest) (hash : String) : q i = .refresh x →
      h.committed i ≠ none → x.presented = some hash → DescendsFromLogin h j hash →
      DescendsFromLogin h j x.newHash

/-- The token descends from a login of the user that has committed later than the moment `n`. -/
def Renewed (h : Ledger AuthDb τ) (userId : UUID) (n : ℕ) (hash : String) : Prop :=
  ∃ j m, LogsIn q j userId ∧ h.committed j = some m ∧ n < m ∧ DescendsFromLogin q h j hash

/-- After a logout, every token of its user descends from a later login of the user. -/
def LogoutFinal (s : Logged AuthDb AuthKey τ) : Prop :=
  ∀ i userId n, q i = .logoutAll userId → s.2.committed i = some n →
    ∀ r ∈ s.1.db.tokens, r.userId = userId → Renewed q s.2 userId n r.tokenHash

/-- Nobody has come between: since a refresh that commits has looked its token up, no logout of
the token's user has committed; and a logout that commits has found every row of its user that is
committed. -/
def Undisturbed (s : Logged AuthDb AuthKey τ) : Label τ → Prop
  | .run i => (s.1.tx i).phase = .running .commit → ∀ n d, s.2.began i = some (n, d) →
    match q i with
    | .refresh x => ∀ t ∈ d.tokens, x.presented = some t.tokenHash →
      ∀ j m, q j = .logoutAll t.userId → s.2.committed j = some m → m < n
    | .login _ => True
    | .logoutAll userId =>
      ∀ r ∈ s.1.db.tokens, r.userId = userId → .token r.id ∈ userTokenKeys userId d
  | .abort _ => True

end Promise

/-! ## What a request can commit

A request decides by what its first statement has seen. What it commits later is applied to tables
that may have changed since. -/

/-- The change adds the row and no other, where the row is new; it may delete rows. -/
structure Issues (r : RefreshTokenRow) (change : AuthDb → AuthDb) : Prop where
  sub : ∀ db, ∀ r' ∈ (change db).tokens, r' ∈ db.tokens ∨ r' = r
  mem : ∀ db, ¬ db.tokens.Clash r → r ∈ (change db).tokens

/-- What the request may commit if its first statement has seen `d`. -/
def Allowed : SessionRequest → AuthDb → (AuthDb → AuthDb) → Prop
  | .refresh q, d, change =>
    ∃ t ∈ d.tokens, q.presented = some t.tokenHash ∧ Issues (q.issued t.userId) change
  | .login q, _, change => ∃ userId, q.user = some userId ∧ Issues (q.issue.issued userId) change
  | .logoutAll userId, d, change =>
    ∃ held, (∀ k ∈ held, k ∈ userTokenKeys userId d) ∧ change = deleteTokens held

theorem TokenTable.mem_insert_self {t : TokenTable} {r : RefreshTokenRow} (h : ¬ t.Clash r) :
    r ∈ t.insert r := by
  simp only [TokenTable.insert, dif_neg h]
  exact List.mem_append_right _ (List.mem_singleton_self _)

theorem TokenTable.clash_iff {t : TokenTable} {r : RefreshTokenRow} :
    t.Clash r ↔ ∃ r' ∈ t, r'.id = r.id ∨ r'.tokenHash = r.tokenHash := by
  rw [Clash, List.mem_map, List.mem_map]
  refine ⟨?_, ?_⟩
  · rintro (⟨r', hr', h⟩ | ⟨r', hr', h⟩)
    · exact ⟨r', hr', Or.inl h⟩
    · exact ⟨r', hr', Or.inr h⟩
  · rintro ⟨r', hr', h | h⟩
    · exact Or.inl ⟨r', hr', h⟩
    · exact Or.inr ⟨r', hr', h⟩

/-- `_create_refresh_token` after deletions: it commits nothing but the new row beside them. -/
theorem commits_createTx {q : RefreshRequest} {user : AuthUser} {change : AuthDb → AuthDb}
    (hsub : ∀ db, ∀ r ∈ (change db).tokens, r ∈ db.tokens) :
    (createTx q user).Commits (Issues (q.issued user.id)) change := by
  intro d
  show Program.Commits _ (if d.tokens.Clash (q.issued user.id) then .rollback else _) _
  split
  · exact trivial
  intro _ held _ _
  refine ⟨fun db r' hr' => ?_, fun db hno => TokenTable.mem_insert_self fun hc => hno ?_⟩
  · exact (TokenTable.mem_of_mem_insert hr').imp_left (hsub db r')
  · obtain ⟨r', hr', h⟩ := TokenTable.clash_iff.mp hc
    exact TokenTable.clash_iff.mpr ⟨r', hsub db r' hr', h⟩

theorem opens_refreshTx {q : RefreshRequest} : (refreshTx q).Opens (Allowed (.refresh q)) := by
  rcases hq : q.presented with _ | hash
  · simp only [refreshTx, hq]
    exact trivial
  simp only [refreshTx, hq]
  intro d
  show (checkToken q (getByHash d hash)).Commits _ _
  rcases hget : getByHash d hash with _ | t
  · exact trivial
  obtain ⟨ht, rfl⟩ := getByHash_eq_some hget
  simp only [checkToken]
  split
  · exact trivial
  intro d'
  show (checkUser q t (d'.users.find? t.userId)).Commits _ _
  rcases hfind : d'.users.find? t.userId with _ | user
  · exact trivial
  obtain ⟨-, hid⟩ := KeyedTable.find?_eq_some.mp hfind
  simp only [checkUser]
  split
  swap
  · exact trivial
  intro _ held _ _
  refine Program.Commits.mono (fun change hc => ⟨t, ht, hq, ?_⟩)
    (commits_createTx fun db r hr => (TokenTable.mem_delete.mp hr).1)
  rw [← hid]
  exact hc

theorem opens_loginTx {q : LoginRequest} : (loginTx q).Opens (Allowed (.login q)) := by
  intro d
  show (checkLogin q (q.user.bind fun id => d.users.find? id)).Commits _ _
  rcases hq : q.user with _ | userId
  · exact trivial
  rw [Option.bind_some]
  rcases hfind : d.users.find? userId with _ | user
  · exact trivial
  obtain ⟨-, hid⟩ := KeyedTable.find?_eq_some.mp hfind
  simp only [checkLogin]
  split
  swap
  · exact trivial
  refine Program.Commits.mono (fun change hc => ⟨userId, hq, ?_⟩)
    (commits_createTx fun db r hr => hr)
  rw [← hid]
  exact hc

/-- **What a request commits** is allowed by what its first statement has seen. -/
theorem opens_tx (q : SessionRequest) : q.tx.Opens (Allowed q) := by
  cases q with
  | refresh q => exact opens_refreshTx
  | login q => exact opens_loginTx
  | logoutAll userId => exact fun d held _ hheld => ⟨held, hheld, rfl⟩

theorem tx_ne_commit (q : SessionRequest) : q.tx ≠ .commit := by
  cases q with
  | refresh q => exact refreshTx_ne_commit
  | login q => exact fun h => by cases h
  | logoutAll userId => exact fun h => by cases h

theorem mem_userTokenKeys {k : AuthKey} {userId : UUID} {db : AuthDb} :
    k ∈ userTokenKeys userId db ↔ ∃ r ∈ db.tokens, r.userId = userId ∧ k = .token r.id := by
  simp only [userTokenKeys, List.mem_map, List.mem_filter, decide_eq_true_eq]
  refine ⟨?_, ?_⟩
  · rintro ⟨r, ⟨hr, hu⟩, rfl⟩
    exact ⟨r, hr, hu, rfl⟩
  · rintro ⟨r, hr, hu, rfl⟩
    exact ⟨r, ⟨hr, hu⟩, rfl⟩

/-- The rows after a request's changes were there before, or it has issued them. -/
theorem Allowed.mem_change {q : SessionRequest} {d : AuthDb} {change : AuthDb → AuthDb}
    (h : Allowed q d change) {db : AuthDb} {r : RefreshTokenRow}
    (hr : r ∈ (change db).tokens) :
    r ∈ db.tokens ∨ q.newId = some r.id ∧ q.newHash = some r.tokenHash := by
  cases q with
  | refresh q =>
    obtain ⟨t, -, -, hc⟩ := h
    obtain hr | rfl := hc.sub db r hr
    · exact Or.inl hr
    · exact Or.inr ⟨rfl, rfl⟩
  | login q =>
    obtain ⟨userId, -, hc⟩ := h
    obtain hr | rfl := hc.sub db r hr
    · exact Or.inl hr
    · exact Or.inr ⟨rfl, rfl⟩
  | logoutAll userId =>
    obtain ⟨held, -, rfl⟩ := h
    exact Or.inl (TokenTable.mem_delete.mp hr).1

/-! ## What the book says of a row

The book has the moment at which each transaction began and committed. A row of `refresh_tokens` can
be dated by it. -/

variable {τ : Type*} {q : τ → SessionRequest} {start : TokenTable}
  {s s' : Logged AuthDb AuthKey τ} {l : Label τ} {i j : τ} {r t : RefreshTokenRow}
  {h h' : Ledger AuthDb τ} {n m : ℕ} {userId : UUID} {hash : String} {d : AuthDb}

/-- The row was there at the start, or its issuer has committed before the moment `n`. -/
def IssuedBefore (q : τ → SessionRequest) (start : TokenTable) (h : Ledger AuthDb τ) (n : ℕ)
    (r : RefreshTokenRow) : Prop :=
  r ∈ start ∨ ∃ j m, (q j).newId = some r.id ∧ (q j).newHash = some r.tokenHash ∧
    h.committed j = some m ∧ m < n

/-- The book has all the commits of another, at the same moments. A run only adds to it. -/
def Keeps (h h' : Ledger AuthDb τ) : Prop :=
  ∀ j n, h.committed j = some n → h'.committed j = some n

theorem IssuedBefore.mono (hr : IssuedBefore q start h n r) (hk : Keeps h h') (hn : n ≤ m) :
    IssuedBefore q start h' m r := by
  obtain hr | ⟨j, k, hid, hhash, hc, hlt⟩ := hr
  · exact Or.inl hr
  · exact Or.inr ⟨j, k, hid, hhash, hk j k hc, hlt.trans_le hn⟩

theorem DescendsFromLogin.mono (hd : DescendsFromLogin q h j hash) (hk : Keeps h h') :
    DescendsFromLogin q h' j hash := by
  have hne : ∀ i, h.committed i ≠ none → h'.committed i ≠ none := by
    intro i hi
    obtain ⟨n, hn⟩ := Option.ne_none_iff_exists'.mp hi
    rw [hk i n hn]
    exact Option.some_ne_none n
  induction hd with
  | login x hq hc => exact .login x hq (hne j hc)
  | exchange i x hash hq hc hx _ ih => exact .exchange i x hash hq (hne i hc) hx ih

theorem Renewed.mono (hr : Renewed q h userId n hash) (hk : Keeps h h') :
    Renewed q h' userId n hash := by
  obtain ⟨j, m, hj, hm, hlt, hd⟩ := hr
  exact ⟨j, m, hj, hk j m hm, hlt, hd.mono hk⟩

/-- Nothing that was issued has the id or the hash of a token somebody is yet to issue. -/
theorem IssuedBefore.ne_new (hfresh : FreshSessions q start) (hr : IssuedBefore q start h n r)
    (hi : h.committed i = none) :
    (q i).newId ≠ some r.id ∧ (q i).newHash ≠ some r.tokenHash := by
  obtain hr | ⟨j, m, hid, hhash, hc, -⟩ := hr
  · exact ⟨hfresh.id_new i r hr, hfresh.hash_new i r hr⟩
  refine ⟨fun hid' => ?_, fun hhash' => ?_⟩
  · obtain rfl := hfresh.id_inj i j (by rw [hid']; exact Option.some_ne_none _)
      (hid'.trans hid.symm)
    rw [hi] at hc
    cases hc
  · obtain rfl := hfresh.hash_inj i j (by rw [hhash']; exact Option.some_ne_none _)
      (hhash'.trans hhash.symm)
    rw [hi] at hc
    cases hc

/-- Who has issued the token a descent ends with: the login itself, or the last exchange. -/
theorem DescendsFromLogin.last (hd : DescendsFromLogin q h j hash) :
    (∃ x, q j = .login x ∧ hash = x.newHash ∧ h.committed j ≠ none) ∨
      ∃ i x hash', q i = .refresh x ∧ hash = x.newHash ∧ h.committed i ≠ none ∧
        x.presented = some hash' ∧ DescendsFromLogin q h j hash' := by
  cases hd with
  | login x hq hc => exact Or.inl ⟨x, hq, rfl, hc⟩
  | exchange i x hash' hq hc hx hd => exact Or.inr ⟨i, x, hash', hq, rfl, hc, hx, hd⟩

/-! ## Where a logout is

From its search to its commit, a logout has to cover the rows that it has found and that are still
there, with the locks it holds and those it waits for. -/

/-- The `DELETE` of a logout on its way, where `covered` says of its keys what they have to
cover. -/
inductive LogoutTx (userId : UUID) (covered : List AuthKey → Prop) : Tx AuthDb AuthKey → Prop where
  | locking (waiting held : List AuthKey) : covered (held ++ waiting) →
      LogoutTx userId covered ⟨.locking false (userTokenKeys userId)
        (fun held _ => .write (deleteTokens held) .commit) waiting held, id⟩
  | deleting (held : List AuthKey) : covered held →
      LogoutTx userId covered ⟨.running (.write (deleteTokens held) .commit), id⟩
  | deleted (held : List AuthKey) : covered held →
      LogoutTx userId covered ⟨.running .commit, deleteTokens held⟩
  | ended (b : Bool) (change : AuthDb → AuthDb) : LogoutTx userId covered ⟨.ended b, change⟩

/-- The keys of the rows of the user that were found in `d` and are still there. -/
def Covers (s : Logged AuthDb AuthKey τ) (userId : UUID) (d : AuthDb) (keys : List AuthKey) :
    Prop :=
  ∀ r ∈ s.1.db.tokens, r.userId = userId → .token r.id ∈ userTokenKeys userId d →
    .token r.id ∈ keys

theorem LogoutTx.mono {covered covered' : List AuthKey → Prop} {tx : Tx AuthDb AuthKey}
    (ht : LogoutTx userId covered tx) (hc : ∀ keys, covered keys → covered' keys) :
    LogoutTx userId covered' tx := by
  cases ht with
  | locking waiting held hk => exact .locking waiting held (hc _ hk)
  | deleting held hk => exact .deleting held (hc _ hk)
  | deleted held hk => exact .deleted held (hc _ hk)
  | ended b change => exact .ended b change

section Steps

variable [DecidableEq τ]

/-- The first step of a logout is its search: it has to lock the rows it has found. -/
theorem logoutTx_start (hs : logged s l = some s')
    (htx : s.1.tx l.who = ⟨.running (logoutAllTx userId), id⟩) :
    LogoutTx userId (Covers s userId s.1.db) (s'.1.tx l.who) := by
  have hstep := step_of_logged hs
  obtain ⟨i, rfl, hm⟩ | ⟨i, rfl, -, heq⟩ := State.step_cases hstep
  swap
  · rw [heq, show Label.who (.abort i) = i from rfl, State.finish_tx]
    exact .ended _ _
  have hview : s.1.view i = s.1.db := by
    rw [State.view, show s.1.tx i = _ from htx]
    rfl
  simp only [State.step, State.runStep, show s.1.tx i = _ from htx, logoutAllTx] at hstep
  rw [← Option.some.inj hstep, show Label.who (.run i) = i from rfl, State.goto_tx,
    show s.1.tx i = _ from htx, hview]
  exact .locking _ _ fun r _ _ hk => hk

/-- A step of its own: it takes a lock or passes over a row that is gone, deletes what it has
locked, or commits. -/
theorem LogoutTx.step (ht : LogoutTx userId (Covers s userId d) (s.1.tx i))
    (hs : logged s (.run i) = some s') : LogoutTx userId (Covers s userId d) (s'.1.tx i) := by
  have hstep := step_of_logged hs
  generalize htx : s.1.tx i = tx at ht
  cases ht with
  | locking waiting held hk =>
    have hview : s.1.view i = s.1.db := by
      rw [State.view, htx]
      rfl
    cases waiting with
    | nil =>
      simp only [State.step, State.runStep, htx] at hstep
      rw [← Option.some.inj hstep, State.goto_tx, htx]
      exact .deleting held fun r hr hu hf => List.append_nil held ▸ hk r hr hu hf
    | cons k waiting =>
      simp only [State.step, State.runStep, htx, Bool.false_and, Bool.false_eq_true, if_false]
        at hstep
      split at hstep
      · cases hstep
      split at hstep
      · rw [← Option.some.inj hstep, State.hold_tx, htx]
        refine .locking waiting _ fun r hr hu hf => ?_
        rw [List.append_assoc]
        exact hk r hr hu hf
      · next hgone =>
        rw [← Option.some.inj hstep, State.goto_tx, htx]
        refine .locking waiting held fun r hr hu hf => ?_
        obtain hm | hm := List.mem_append.mp (hk r hr hu hf)
        · exact List.mem_append_left _ hm
        obtain rfl | hm := List.mem_cons.mp hm
        · -- a row that is committed is found again
          rw [hview] at hgone
          exact absurd (mem_userTokenKeys.mpr ⟨r, hr, hu, rfl⟩) hgone
        · exact List.mem_append_right _ hm
  | deleting held hk =>
    simp only [State.step, State.runStep, htx] at hstep
    rw [← Option.some.inj hstep, State.wrote_tx, htx]
    exact .deleted held hk
  | deleted held hk =>
    simp only [State.step, State.runStep, htx] at hstep
    rw [← Option.some.inj hstep, State.finish_tx]
    exact .ended _ _
  | ended b change =>
    simp only [State.step, State.runStep, htx] at hstep
    cases hstep

/-! ## Every run

The invariant holds along a run as long as the logouts have been final; what decides whether they
stay so is a commit. -/

/-- The requests about to start, on committed tables and with an empty book. -/
def sessions (q : τ → SessionRequest) (db : AuthDb) : Logged AuthDb AuthKey τ :=
  (.start db fun i => (q i).tx, .start)

/-- What holds along a run as long as the logouts have been final. -/
structure SessionsAt (q : τ → SessionRequest) (start : TokenTable) (s : Logged AuthDb AuthKey τ) :
    Prop where
  sound : Sound s
  placed : ∀ i, Placed (Allowed (q i)) (q i).tx s i
  deletes : ∀ i userId b, q i = .logoutAll userId → s.2.began i = some b →
    LogoutTx userId (Covers s userId b.2) (s.1.tx i)
  stored : ∀ r ∈ s.1.db.tokens, IssuedBefore q start s.2 s.2.clock r
  seen : ∀ i b, s.2.began i = some b → ∀ r ∈ b.2.tokens, IssuedBefore q start s.2 b.1 r
  exchanged : ∀ i x m, q i = .refresh x → s.2.committed i = some m →
    ∃ b, s.2.began i = some b ∧ b.1 < m ∧ ∃ t ∈ b.2.tokens, x.presented = some t.tokenHash
  settled : ∀ i b, s.2.began i = some b → ∀ j userId m, q j = .logoutAll userId →
    s.2.committed j = some m → m < b.1 → ∀ r ∈ b.2.tokens, r.userId = userId →
    Renewed q s.2 userId m r.tokenHash

omit [DecidableEq τ] in
theorem sessionsAt_sessions {db : AuthDb} : SessionsAt q db.tokens (sessions q db) := by
  refine ⟨sound_start, fun i => placed_start, fun i userId b _ hb => (by cases hb),
    fun r hr => Or.inl hr, fun i b hb => (by cases hb), fun i x m _ hm => (by cases hm),
    fun i b hb => (by cases hb)⟩

/-- A row after a step was there before, or is issued by the transaction that commits with it. -/
theorem SessionsAt.mem_step (h : SessionsAt q start s) (hs : logged s l = some s')
    (hr : r ∈ s'.1.db.tokens) :
    r ∈ s.1.db.tokens ∨ ∃ i, s.2.committed i = none ∧ s'.2.committed i = some s.2.clock ∧
      (q i).newId = some r.id ∧ (q i).newHash = some r.tokenHash := by
  obtain ⟨i, rfl, hp, hdb, hc⟩ | ⟨-, hdb, -⟩ := logged_cases hs
  · obtain ⟨n, d, -, ha⟩ := (h.placed i).commit (tx_ne_commit _) hp
    rw [hdb] at hr
    refine (ha.mem_change hr).imp_right fun hnew => ⟨i, h.sound.not_committed hp, ?_, hnew⟩
    rw [hc, Function.update_self]
  · rw [hdb] at hr
    exact Or.inl hr

/-- What a `DELETE` has to cover gets no larger: no row that is inserted later was there when it
searched. -/
theorem SessionsAt.covers_step (h : SessionsAt q start s) (hfresh : FreshSessions q start)
    (hs : logged s l = some s') (hd : ∀ r ∈ d.tokens, IssuedBefore q start s.2 n r)
    {keys : List AuthKey} (hk : Covers s userId d keys) : Covers s' userId d keys := by
  intro r hr hu hf
  obtain hr | ⟨i, hi, -, hid, -⟩ := h.mem_step hs hr
  · exact hk r hr hu hf
  · obtain ⟨r', hr', -, heq⟩ := mem_userTokenKeys.mp hf
    have hne := ((hd r' hr').ne_new hfresh hi).1
    rw [← AuthKey.token.inj heq] at hne
    exact absurd hid hne

theorem SessionsAt.keeps (h : SessionsAt q start s) (hs : logged s l = some s') :
    Keeps s.2 s'.2 := fun _ _ hn => h.sound.committed_mono hs hn

/-- **A step** from a state whose logouts are final keeps the invariant. -/
theorem SessionsAt.step (h : SessionsAt q start s) (hfresh : FreshSessions q start)
    (hfin : LogoutFinal q s) (hs : logged s l = some s') : SessionsAt q start s' := by
  have hkeeps := h.keeps hs
  have hstep := step_of_logged hs
  have hclock : s.2.clock ≤ s'.2.clock := by
    rw [clock_of_logged hs]
    exact Nat.le_succ _
  refine ⟨h.sound.step hs, fun i => (h.placed i).step (opens_tx _) hs,
    fun i userId b hq hb => ?_, fun r hr => ?_, fun i b hb r hr => ?_, fun i x m hq hm => ?_,
    fun i b hb j userId m hq hm hlt r hr hu => ?_⟩
  -- the logout covers the rows it saw; one that begins now sees every committed row
  · obtain hb | ⟨rfl, hnone, rfl⟩ := began_cases hs hb
    · have htx := h.deletes i userId b hq hb
      refine LogoutTx.mono ?_ fun keys => h.covers_step hfresh hs (h.seen i b hb)
      by_cases hi : i = l.who
      swap
      · rw [State.tx_of_ne hstep hi]
        exact htx
      subst hi
      cases l with
      | run i => exact htx.step hs
      | abort i =>
        obtain ⟨i', hl, -⟩ | ⟨i', hl, -, heq⟩ := State.step_cases hstep
        · cases hl
        · cases hl
          rw [heq, show Label.who (.abort i) = i from rfl, State.finish_tx]
          exact .ended _ _
    · refine LogoutTx.mono (logoutTx_start hs ?_) fun keys => h.covers_step hfresh hs h.stored
      obtain ⟨-, htx⟩ | ⟨n, d, hb', -⟩ := h.placed l.who
      · rw [htx, hq]
        rfl
      · rw [hnone] at hb'
        cases hb'
  · obtain hr | ⟨i, -, hi, hid, hhash⟩ := h.mem_step hs hr
    · exact (h.stored r hr).mono hkeeps hclock
    · exact Or.inr ⟨i, _, hid, hhash, hi, by rw [clock_of_logged hs]; exact Nat.lt_succ_self _⟩
  · obtain hb | ⟨-, -, rfl⟩ := began_cases hs hb
    · exact (h.seen i b hb r hr).mono hkeeps (Nat.le_refl _)
    · exact (h.stored r hr).mono hkeeps (Nat.le_refl _)
  · obtain hm | ⟨rfl, rfl, hp⟩ := committed_cases hs hm
    · obtain ⟨b, hb, hrest⟩ := h.exchanged i x m hq hm
      exact ⟨b, began_mono hs hb, hrest⟩
    · obtain ⟨n, d, hb, ha⟩ := (h.placed i).commit (tx_ne_commit _) hp
      rw [hq] at ha
      obtain ⟨t, ht, hx, -⟩ := ha
      exact ⟨(n, d), began_mono hs hb, h.sound.began_lt i _ hb, t, ht, hx⟩
  · obtain hm | ⟨rfl, -, -⟩ := committed_cases hs hm
    · obtain hb | ⟨-, -, rfl⟩ := began_cases hs hb
      · exact (h.settled i b hb j userId m hq hm hlt r hr hu).mono hkeeps
      · exact (hfin j userId m hq hm r hr hu).mono hkeeps
    · obtain hb | ⟨-, -, rfl⟩ := began_cases hs hb
      · exact absurd (h.sound.began_lt i b hb) (Nat.lt_asymm hlt)
      · exact absurd hlt (Nat.lt_irrefl _)

omit [DecidableEq τ] in
/-- The issuer of a token that was there before `n` committed before `n`. -/
theorem IssuedBefore.issuer (hfresh : FreshSessions q start) (hr : IssuedBefore q start h n r)
    (hi : (q i).newHash = some r.tokenHash) : ∃ m, h.committed i = some m ∧ m < n := by
  obtain hr | ⟨j, m, -, hhash, hc, hlt⟩ := hr
  · exact absurd hi (hfresh.hash_new i r hr)
  · obtain rfl := hfresh.hash_inj i j (by rw [hi]; exact Option.some_ne_none _)
      (hi.trans hhash.symm)
    exact ⟨m, hc, hlt⟩

omit [DecidableEq τ] in
/-- **A token descends only from logins before it.** -/
theorem SessionsAt.descends_lt (h : SessionsAt q start s) (hfresh : FreshSessions q start)
    (hd : DescendsFromLogin q s.2 j hash) :
    ∀ {n : ℕ} {r : RefreshTokenRow}, IssuedBefore q start s.2 n r → r.tokenHash = hash →
      ∃ m, s.2.committed j = some m ∧ m < n := by
  induction hd with
  | login x hq hc =>
    intro n r hr hhash
    apply hr.issuer hfresh
    rw [hhash, hq]
    rfl
  | exchange i x hash hq hc hx _ ih =>
    intro n r hr hhash
    obtain ⟨m, hm, hlt⟩ := hr.issuer hfresh (i := i) (by rw [hhash, hq]; rfl)
    obtain ⟨b, hb, hbm, t, ht, hx'⟩ := h.exchanged i x m hq hm
    obtain ⟨k, hk, hkb⟩ := ih (h.seen i b hb t ht) (Option.some.inj (hx'.symm.trans hx))
    exact ⟨k, hk, hkb.trans (hbm.trans hlt)⟩

omit [DecidableEq τ] in
/-- A new token that descends from a login: the token it was exchanged for does, since a login has
issued none like it. -/
theorem DescendsFromLogin.of_refresh (hfresh : FreshSessions q start) {x : RefreshRequest}
    (hq : q i = .refresh x) (hd : DescendsFromLogin q h j x.newHash) :
    ∃ hash, x.presented = some hash ∧ DescendsFromLogin q h j hash := by
  have hnew : (q i).newHash = some x.newHash := by
    rw [hq]
    rfl
  have hne : (q i).newHash ≠ none := hnew ▸ Option.some_ne_none _
  obtain ⟨y, hy, hhash, -⟩ | ⟨i', y, hash', hy, hhash, -, hx, hd⟩ := hd.last
  · have hi := hfresh.hash_inj i j hne (by rw [hnew, hy, hhash]; rfl)
    rw [← hi, hq] at hy
    cases hy
  · have hi := hfresh.hash_inj i i' hne (by rw [hnew, hy, hhash]; rfl)
    rw [← hi, hq] at hy
    cases hy
    exact ⟨hash', hx, hd⟩

/-- The rows that stay are as final as before: the book has only grown. -/
theorem SessionsAt.final_of_mem (h : SessionsAt q start s) (hfin : LogoutFinal q s)
    (hs : logged s l = some s') {L : τ} (hq : q L = .logoutAll userId)
    (hn : s.2.committed L = some n) (hr : r ∈ s.1.db.tokens) (hu : r.userId = userId) :
    Renewed q s'.2 userId n r.tokenHash :=
  (hfin L userId n hq hn r hr hu).mono (h.keeps hs)

/-- **The commit of a refresh** keeps the logouts final, exactly if none of the user has committed
since it looked its token up. -/
theorem SessionsAt.final_refresh (h : SessionsAt q start s) (h' : SessionsAt q start s')
    (hfresh : FreshSessions q start) (hfin : LogoutFinal q s)
    (hs : logged s (.run i) = some s') (hp : (s.1.tx i).phase = .running .commit)
    {x : RefreshRequest} (hq : q i = .refresh x) (hb : s.2.began i = some (n, d))
    (ht : t ∈ d.tokens) (hx : x.presented = some t.tokenHash)
    (hc : Issues (x.issued t.userId) (s.1.tx i).change) :
    LogoutFinal q s' ↔
      ∀ j m, q j = .logoutAll t.userId → s.2.committed j = some m → m < n := by
  obtain ⟨hdb, hnew⟩ := logged_commit hs hp
  have hnone := h.sound.not_committed hp
  refine ⟨fun hfin' j m hj hm => ?_, fun hbefore j u m hj hm r hr hu => ?_⟩
  · -- the new row descends from what the presented token descends from
    by_contra hlate
    have hclash : ¬ s.1.db.tokens.Clash (x.issued t.userId) := by
      rw [TokenTable.clash_iff]
      rintro ⟨r, hr, hor⟩
      have hne := (h.stored r hr).ne_new hfresh hnone
      rw [hq] at hne
      obtain hid | hhash := hor
      · exact hne.1 (congrArg some hid.symm)
      · exact hne.2 (congrArg some hhash.symm)
    have hmem : x.issued t.userId ∈ s'.1.db.tokens := by
      rw [hdb]
      exact hc.mem s.1.db hclash
    obtain ⟨k, km, -, hkm, hlt, hd⟩ := hfin' j t.userId m hj (h.keeps hs j m hm) _ hmem rfl
    obtain ⟨hash, hx', hd⟩ := hd.of_refresh hfresh hq
    obtain ⟨km', hkm', hlt'⟩ := h'.descends_lt hfresh hd (h'.seen i _ (began_mono hs hb) t ht)
      (Option.some.inj (hx.symm.trans hx'))
    obtain rfl := Option.some.inj (hkm.symm.trans hkm')
    exact hlate (hlt.trans hlt')
  · obtain hm | ⟨rfl, hl, -⟩ := committed_cases hs hm
    swap
    · cases hl
      rw [hq] at hj
      cases hj
    rw [hdb] at hr
    obtain hr | rfl := hc.sub s.1.db r hr
    · exact h.final_of_mem hfin hs hj hm hr hu
    have hut : t.userId = u := hu
    subst hut
    obtain ⟨k, km, hk, hkm, hlt, hd⟩ := (h.settled i _ hb j t.userId m hj hm
      (hbefore j m hj hm) t ht rfl).mono (h.keeps hs)
    exact ⟨k, km, hk, hkm, hlt,
      .exchange i x t.tokenHash hq (hnew ▸ Option.some_ne_none _) hx hd⟩

/-- **The commit of a login** keeps the logouts final: its token descends from a later login. -/
theorem SessionsAt.final_login (h : SessionsAt q start s) (hfin : LogoutFinal q s)
    (hs : logged s (.run i) = some s') (hp : (s.1.tx i).phase = .running .commit)
    {x : LoginRequest} (hq : q i = .login x) (hx : x.user = some userId)
    (hc : Issues (x.issue.issued userId) (s.1.tx i).change) : LogoutFinal q s' := by
  obtain ⟨hdb, hnew⟩ := logged_commit hs hp
  intro j u m hj hm r hr hu
  obtain hm | ⟨rfl, hl, -⟩ := committed_cases hs hm
  swap
  · cases hl
    rw [hq] at hj
    cases hj
  rw [hdb] at hr
  obtain hr | rfl := hc.sub s.1.db r hr
  · exact h.final_of_mem hfin hs hj hm hr hu
  · refine ⟨i, _, ⟨x, hq, hx.trans (congrArg some hu)⟩, hnew, h.sound.committed_lt j m hm, ?_⟩
    exact .login x hq (hnew ▸ Option.some_ne_none _)

/-- **The commit of a logout** is final exactly if it has found every row of its user. -/
theorem SessionsAt.final_logoutAll (h : SessionsAt q start s) (h' : SessionsAt q start s')
    (hfin : LogoutFinal q s) (hs : logged s (.run i) = some s')
    (hp : (s.1.tx i).phase = .running .commit) (hq : q i = .logoutAll userId)
    (hb : s.2.began i = some (n, d)) {held : List AuthKey}
    (hheld : ∀ k ∈ held, k ∈ userTokenKeys userId d)
    (hc : (s.1.tx i).change = deleteTokens held) :
    LogoutFinal q s' ↔
      ∀ r ∈ s.1.db.tokens, r.userId = userId → .token r.id ∈ userTokenKeys userId d := by
  obtain ⟨hdb, hnew⟩ := logged_commit hs hp
  refine ⟨fun hfin' r hr hu => ?_, fun hfound j u m hj hm r hr hu => ?_⟩
  · -- a row that was not found stays, and nothing has committed since
    by_contra hf
    have hmem : r ∈ s'.1.db.tokens := by
      rw [hdb, State.view, hc]
      exact TokenTable.mem_delete.mpr ⟨hr, decide_eq_false fun hk => hf (hheld _ hk)⟩
    obtain ⟨k, km, -, hkm, hlt, -⟩ := hfin' i userId _ hq hnew r hmem hu
    have hle := h'.sound.committed_lt k km hkm
    rw [clock_of_logged hs] at hle
    exact absurd hlt (Nat.not_lt.mpr (Nat.le_of_lt_succ hle))
  · have hcover : ∃ held, Covers s userId d held ∧ (s.1.tx i).change = deleteTokens held := by
      have htx := h.deletes i userId _ hq hb
      generalize s.1.tx i = tx at htx hp
      cases htx with
      | deleted held hk => exact ⟨held, hk, rfl⟩
      | _ => cases hp
    obtain ⟨held, hcov, hc⟩ := hcover
    rw [hdb, State.view, hc] at hr
    obtain ⟨hr, hdel⟩ := TokenTable.mem_delete.mp hr
    obtain hm | ⟨rfl, hl, -⟩ := committed_cases hs hm
    · exact h.final_of_mem hfin hs hj hm hr hu
    · cases hl
      rw [hq] at hj
      cases hj
      exact absurd (hcov r hr hu (hfound r hr hu)) (of_decide_eq_false hdel)

/-- **A step** from final logouts: they are final after it exactly if nobody has come between. -/
theorem SessionsAt.final_iff (h : SessionsAt q start s) (hfresh : FreshSessions q start)
    (hfin : LogoutFinal q s) (hs : logged s l = some s') :
    LogoutFinal q s' ↔ Undisturbed q s l := by
  have h' := h.step hfresh hfin hs
  obtain ⟨i, rfl, hp, -⟩ | ⟨hno, hdb, hcom⟩ := logged_cases hs
  swap
  · refine iff_of_true (fun i u n hq hn r hr hu => ?_) ?_
    · rw [hcom] at hn
      rw [hdb] at hr
      exact h.final_of_mem hfin hs hq hn hr hu
    · cases l with
      | abort i => exact trivial
      | run i =>
        intro hp
        rw [State.commits_eq_true.mpr ⟨i, rfl, hp⟩] at hno
        cases hno
  obtain ⟨n, d, hb, ha⟩ := (h.placed i).commit (tx_ne_commit _) hp
  have hund : Undisturbed q s (.run i) ↔ match q i with
      | .refresh x => ∀ t ∈ d.tokens, x.presented = some t.tokenHash →
        ∀ j m, q j = .logoutAll t.userId → s.2.committed j = some m → m < n
      | .login _ => True
      | .logoutAll userId =>
        ∀ r ∈ s.1.db.tokens, r.userId = userId → .token r.id ∈ userTokenKeys userId d := by
    refine ⟨fun hC => hC hp n d hb, fun hC _ n' d' hb' => ?_⟩
    cases hb.symm.trans hb'
    exact hC
  rw [hund]
  rcases hq : q i with x | x | userId
  · rw [hq] at ha
    obtain ⟨t, ht, hx, hc⟩ := ha
    rw [h.final_refresh h' hfresh hfin hs hp hq hb ht hx hc]
    refine ⟨fun hC t' ht' hx' => ?_, fun hC => hC t ht hx⟩
    obtain rfl := TokenTable.eq_of_hash_eq ht ht' (Option.some.inj (hx.symm.trans hx'))
    exact hC
  · rw [hq] at ha
    obtain ⟨userId, hx, hc⟩ := ha
    exact iff_of_true (h.final_login hfin hs hp hq hx hc) trivial
  · rw [hq] at ha
    obtain ⟨held, hheld, hc⟩ := ha
    exact h.final_logoutAll h' hfin hs hp hq hb hheld hc

/-- **Logging out everywhere is final, exactly when nobody comes between**: whatever the tables are
and whatever the requests bring, in every state of a run every token that is stored descends from a
login of its user later than each of the user's committed logouts, if and only if no refresh commits
after a logout of its user that committed since the refresh looked its token up, and no logout
commits while a row of its user is committed that its `DELETE` has not found. -/
theorem logoutAll_final_iff (q : τ → SessionRequest) (db : AuthDb)
    (hfresh : FreshSessions q db.tokens) (labels : List (Label τ)) :
    Always logged (LogoutFinal q) (sessions q db) labels ↔
      Along logged (Undisturbed q) (sessions q db) labels := by
  refine always_iff_along_while (fun s l s' h hfin hs => h.step hfresh hfin hs)
    (fun s l s' h hfin hs => h.final_iff hfresh hfin hs) (fun s l hs => ?_)
    sessionsAt_sessions fun i u n _ hn => (by cases hn)
  cases l with
  | abort i => exact trivial
  | run i =>
    intro hp
    simp only [logged, traced, State.step, State.runStep, hp] at hs
    cases hs

end Steps

/-- A stolen session and its owner, who logs out everywhere. -/
def sampleTheft : Bool → SessionRequest
  | false => .refresh ⟨some "a", 2, "b", 50, 50, 50⟩
  | true => .logoutAll 1

/-- The thief's refresh commits first, and the logout finds its token. -/
theorem logoutAll_final_iff_after_refresh :
    Always logged (LogoutFinal sampleTheft) (sessions sampleTheft sampleAuthDb)
        (List.replicate 13 (.run false) ++ List.replicate 5 (.run true)) ↔
      Along logged (Undisturbed sampleTheft) (sessions sampleTheft sampleAuthDb)
        (List.replicate 13 (.run false) ++ List.replicate 5 (.run true)) :=
  logoutAll_final_iff sampleTheft sampleAuthDb ⟨by decide, by decide, by decide, by decide⟩ _

/-- A refresh that has looked its token up before a logout commits survives it. -/
theorem logoutAll_not_final :
    ∃ labels s, exec logged (sessions sampleTheft sampleAuthDb) labels = some s ∧
      ¬ LogoutFinal sampleTheft s := by
  have hrun : (exec logged (sessions sampleTheft sampleAuthDb)
      (.run false :: (List.replicate 5 (.run true) ++ List.replicate 11 (.run false)))).map
        (fun s => decide (s.2.committed true = some 5 ∧
          s.1.db.tokens.rows.map RefreshTokenRow.userId = [1])) = some true := by
    decide +kernel
  obtain ⟨s, he, h⟩ := Option.map_eq_some_iff.mp hrun
  obtain ⟨hcom, hrows⟩ := of_decide_eq_true h
  refine ⟨_, s, he, fun hfin => ?_⟩
  obtain ⟨r, hr, hu⟩ := List.mem_map.mp (hrows.symm ▸ List.mem_singleton_self 1)
  obtain ⟨j, m, ⟨x, hx, -⟩, -⟩ := hfin true 1 5 rfl hcom r hr hu
  cases j with
  | false => cases hx
  | true => cases hx

end Grosh