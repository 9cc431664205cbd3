import Grosh.Lib.ReadCommitted
import Grosh.Domain

/-!
# Rotation of refresh tokens

`AuthService.refresh` looks a token up, deletes its row and inserts the row of a new token, all
in the transaction of the request. The lookup takes no lock and nobody looks at how many rows
the `DELETE` found, so two requests with one token both get a successor: the second waits for the
row, finds it deleted and goes on.

* `singleUse_iff_stillStored` — in a run of any number of requests every token is exchanged at
  most once, and at most one live token descends from a login, exactly if every request commits
  its exchange while the row of the token it presents is still committed.
-/

namespace Grosh

open Transition ReadCommitted

/-! ## The tables

Two tables, as far as a refresh looks at them. The rows of `refresh_tokens` carry the proof that no
two of them share an id or a hash. -/

/-- A row of `refresh_tokens`. The token itself is not stored, only its hash. -/
structure RefreshTokenRow : Type where
  id : UUID
  userId : UUID
  tokenHash : String
  expiresAt : Timestamp

/-- `refresh_tokens`: `id` is its key, and `token_hash` is unique. -/
structure TokenTable : Type where
  rows : List RefreshTokenRow
  ids : (rows.map RefreshTokenRow.id).Nodup
  hashes : (rows.map RefreshTokenRow.tokenHash).Nodup

/-- The columns of `users` a refresh reads or writes. The others are of no concern to it. -/
structure AuthUser : Type where
  id : UUID
  isActive : Bool
  lastActiveAt : Option Timestamp

/-- The rows that are locked: by the `DELETE` of a token, and by the `UPDATE` of its user. -/
inductive AuthKey : Type where
  | token (id : UUID)
  | user (id : UUID)
  deriving DecidableEq

/-- The two tables, which all requests share. -/
structure AuthDb : Type where
  tokens : TokenTable
  users : KeyedTable AuthUser.id

namespace TokenTable

instance : Membership RefreshTokenRow TokenTable := ⟨fun t r => r ∈ t.rows⟩

variable {t : TokenTable} {r r' : RefreshTokenRow}

theorem eq_of_hash_eq (hr : r ∈ t) (hr' : r' ∈ t) (h : r.tokenHash = r'.tokenHash) : r = r' :=
  List.inj_on_of_nodup_map t.hashes hr hr' h

theorem eq_of_id_eq (hr : r ∈ t) (hr' : r' ∈ t) (h : r.id = r'.id) : r = r' :=
  List.inj_on_of_nodup_map t.ids hr hr' h

/-- `DELETE … WHERE p`: what is left has still no two rows with one id or one hash. -/
def delete (t : TokenTable) (p : RefreshTokenRow → Bool) : TokenTable where
  rows := t.rows.filter fun r => !p r
  ids := t.ids.sublist (List.filter_sublist.map _)
  hashes := t.hashes.sublist (List.filter_sublist.map _)

theorem mem_delete {p : RefreshTokenRow → Bool} : r ∈ t.delete p ↔ r ∈ t ∧ p r = false := by
  apply List.mem_filter.trans
  rw [Bool.not_eq_true']
  exact Iff.rfl

/-- A row with this key or this hash is there: the `INSERT` would violate one of the two indexes. -/
def Clash (t : TokenTable) (r : RefreshTokenRow) : Prop :=
  r.id ∈ t.rows.map RefreshTokenRow.id ∨ r.tokenHash ∈ t.rows.map RefreshTokenRow.tokenHash

instance : Decidable (t.Clash r) := inferInstanceAs (Decidable (_ ∨ _))

/-- `INSERT`, where the row clashes with none. A clash leaves the table as it is; the transaction
that runs into it is rolled back. -/
def insert (t : TokenTable) (r : RefreshTokenRow) : TokenTable :=
  if h : t.Clash r then t
  else
    { rows := t.rows ++ [r]
      ids := KeyedTable.nodup_concat t.ids fun hr => h (Or.inl hr)
      hashes := KeyedTable.nodup_concat t.hashes fun hr => h (Or.inr hr) }

theorem mem_insert_of_mem (h : r' ∈ t) : r' ∈ t.insert r := by
  simp only [insert]
  split
  · exact h
  · exact List.mem_append_left _ h

theorem mem_of_mem_insert (h : r' ∈ t.insert r) : r' ∈ t ∨ r' = r := by
  simp only [insert] at h
  split at h
  · exact Or.inl h
  · exact (List.mem_append.mp h).imp id List.mem_singleton.mp

end TokenTable

/-! ## The transaction

The statements of one refresh, in their order. Between two of them other requests may take theirs:
only a row that a statement has locked keeps them waiting. -/

/-- What a request brings: the hash of its cookie (`none` where that is no hexadecimal number),
the random id and the hash of the random token it would issue, and its times. -/
structure RefreshRequest : Type where
  presented : Option String
  newId : UUID
  newHash : String
  checkedAt : Timestamp
  createdAt : Timestamp
  touchedAt : Timestamp

/-- `_REFRESH_TOKEN_TTL_DAYS`: the thirty days a session lasts without being used. -/
def refreshTokenTtl : Timestamp := 30 * 24 * 60 * 60 * second

/-- The row of the new token, which is good for thirty days from its creation. -/
def RefreshRequest.issued (q : RefreshRequest) (userId : UUID) : RefreshTokenRow :=
  ⟨q.newId, userId, q.newHash, q.createdAt + refreshTokenTtl⟩

/-- `TokenRepo.get_by_hash`: a plain `SELECT`, which sees what is committed and locks nothing. -/
def getByHash (db : AuthDb) (hash : String) : Option RefreshTokenRow :=
  db.tokens.rows.find? fun r => decide (r.tokenHash = hash)

/-- The rows `DELETE FROM refresh_tokens WHERE id = $1` finds: one at most, or none if another
request was faster. -/
def tokenKeys (id : UUID) (db : AuthDb) : List AuthKey :=
  (db.tokens.rows.filter fun r => decide (r.id = id)).map fun r => .token r.id

/-- The deletion of the rows that were locked. With none locked it changes nothing. -/
def deleteTokens (held : List AuthKey) (db : AuthDb) : AuthDb :=
  { db with tokens := db.tokens.delete fun r => decide (.token r.id ∈ held) }

/-- The `INSERT` of a token, as part of a transaction that has not committed yet. -/
def insertToken (r : RefreshTokenRow) (db : AuthDb) : AuthDb :=
  { db with tokens := db.tokens.insert r }

/-- The rows `UPDATE users … WHERE id = $1` finds: that of the user. -/
def userKeys (id : UUID) (db : AuthDb) : List AuthKey :=
  (db.users.rows.filter fun u => decide (u.id = id)).map fun u => .user u.id

/-- `last_active_at` of the rows that were locked. The other columns stay. -/
def touchUsers (held : List AuthKey) (now : Timestamp) (db : AuthDb) : AuthDb :=
  { db with
    users := db.users.updateWhere (fun u => decide (.user u.id ∈ held))
      (fun u => { u with lastActiveAt := some now }) fun _ => rfl }

/-- `touch_last_active_at`, and the end of the request: after the `UPDATE` the transaction
commits. -/
def touchTx (q : RefreshRequest) (user : AuthUser) : Program AuthDb AuthKey :=
  .lock false (userKeys user.id) fun held _ => .write (touchUsers held q.touchedAt) .commit

/-- `_create_refresh_token`, and what follows. A clash of the new row is an exception, which rolls
everything back. -/
def createTx (q : RefreshRequest) (user : AuthUser) : Program AuthDb AuthKey :=
  .read fun db =>
    if db.tokens.Clash (q.issued user.id) then .rollback
    else .write (insertToken (q.issued user.id)) (touchTx q user)

/-- `TokenRepo.delete`, and what follows: the number of deleted rows is not looked at. -/
def rotateTx (q : RefreshRequest) (token : RefreshTokenRow) (user : AuthUser) :
    Program AuthDb AuthKey :=
  .lock false (tokenKeys token.id) fun held _ => .write (deleteTokens held) (createTx q user)

/-- The user of the token, and what follows: a user who is gone or has been deactivated ends the
request. -/
def checkUser (q : RefreshRequest) (token : RefreshTokenRow) :
    Option AuthUser → Program AuthDb AuthKey
  | none => .rollback
  | some user => if user.isActive then rotateTx q token user else .rollback

/-- The token, and what follows: one that is unknown or has expired ends the request before anything
is written. -/
def checkToken (q : RefreshRequest) : Option RefreshTokenRow → Program AuthDb AuthKey
  | none => .rollback
  | some token =>
    if token.expiresAt < q.checkedAt then .rollback
    else .read fun db => checkUser q token (db.users.find? token.userId)

/-- `AuthService.refresh` in the transaction of its request; an exception rolls it back. -/
def refreshTx (q : RefreshRequest) : Program AuthDb AuthKey :=
  match q.presented with
  | none => .rollback
  | some hash => .read fun db => checkToken q (getByHash db hash)

/-! ## Where a request is

The invariant says of each request how far it has come, what it has read and which row it holds, and
ties this to the rows that are committed: a token that a request has read is still stored, or
somebody has exchanged it. -/

/-- What a request has done to the token it presents: each stage has its statement and its claim on
the row. -/
inductive Progress : Type where
  | fresh
  | read (t : RefreshTokenRow)
  /-- it waits for the rows its `DELETE` has found -/
  | waiting (t : RefreshTokenRow) (keys : List AuthKey)
  /-- it has locked the row -/
  | held (t : RefreshTokenRow)
  /-- its `DELETE` has found the row gone -/
  | missed (t : RefreshTokenRow)
  | exchanged (t : RefreshTokenRow)
  | finished

/-- The token a request has read. Before the look-up there is none, and at the end it does not
matter any more. -/
def Progress.token : Progress → Option RefreshTokenRow
  | .fresh => none
  | .read t => some t
  | .waiting t _ => some t
  | .held t => some t
  | .missed t => some t
  | .exchanged t => some t
  | .finished => none

/-- What the `DELETE` has locked: the row of the token, or nothing where the row was gone. -/
def Locked : Progress → List AuthKey → Prop
  | .held t, held => held ≠ [] ∧ ∀ k ∈ held, k = .token t.id
  | .missed _, held => held = []
  | _, _ => False

/-- The changes of a request that has deleted and inserted. They become visible with its commit. -/
def rotated (q : RefreshRequest) (user : AuthUser) (held : List AuthKey) (db : AuthDb) : AuthDb :=
  insertToken (q.issued user.id) (deleteTokens held db)

/-- A request's place in its transaction and its uncommitted changes: one constructor for each
statement it may be at. -/
inductive RefreshTx (q : RefreshRequest) : Progress → Tx AuthDb AuthKey → Prop where
  | start : RefreshTx q .fresh ⟨.running (refreshTx q), id⟩
  | checking (t : RefreshTokenRow) : RefreshTx q (.read t) ⟨.running (checkToken q (some t)), id⟩
  | user (t : RefreshTokenRow) (u : AuthUser) :
      RefreshTx q (.read t) ⟨.running (checkUser q t (some u)), id⟩
  | waiting (t : RefreshTokenRow) (u : AuthUser) (keys : List AuthKey) :
      (∀ k ∈ keys, k = .token t.id) → RefreshTx q (.waiting t keys)
        ⟨.locking false (tokenKeys t.id)
          (fun held _ => .write (deleteTokens held) (createTx q u)) keys [], id⟩
  | locking (t : RefreshTokenRow) (u : AuthUser) (keys held : List AuthKey) :
      (∀ k ∈ keys, k = .token t.id) → Locked (.held t) held → RefreshTx q (.held t)
        ⟨.locking false (tokenKeys t.id)
          (fun held _ => .write (deleteTokens held) (createTx q u)) keys held, id⟩
  | deleting (p : Progress) (u : AuthUser) (held : List AuthKey) : Locked p held →
      RefreshTx q p ⟨.running (.write (deleteTokens held) (createTx q u)), id⟩
  | creating (p : Progress) (u : AuthUser) (held : List AuthKey) : Locked p held →
      RefreshTx q p ⟨.running (createTx q u), deleteTokens held⟩
  | inserting (p : Progress) (u : AuthUser) (held : List AuthKey) : Locked p held →
      RefreshTx q p
        ⟨.running (.write (insertToken (q.issued u.id)) (touchTx q u)), deleteTokens held⟩
  | inserted (p : Progress) (u : AuthUser) (held : List AuthKey) : Locked p held →
      RefreshTx q p ⟨.running (touchTx q u), rotated q u held⟩
  | touching (p : Progress) (u : AuthUser) (held keys users : List AuthKey) : Locked p held →
      RefreshTx q p ⟨.locking false (userKeys u.id)
        (fun users _ => .write (touchUsers users q.touchedAt) .commit) keys users,
        rotated q u held⟩
  | touched (p : Progress) (u : AuthUser) (held users : List AuthKey) : Locked p held →
      RefreshTx q p
        ⟨.running (.write (touchUsers users q.touchedAt) .commit), rotated q u held⟩
  | committing (p : Progress) (u : AuthUser) (held users : List AuthKey) : Locked p held →
      RefreshTx q p ⟨.running .commit, fun db =>
        touchUsers users q.touchedAt (rotated q u held db)⟩
  | exchanged (t : RefreshTokenRow) (change : AuthDb → AuthDb) :
      RefreshTx q (.exchanged t) ⟨.ended true, change⟩
  | failed (p : Progress) (change : AuthDb → AuthDb) :
      RefreshTx q p ⟨.running .rollback, change⟩
  | finished (change : AuthDb → AuthDb) : RefreshTx q .finished ⟨.ended false, change⟩

variable {τ : Type*} {q : τ → RefreshRequest} {s s' : State AuthDb AuthKey τ} {i j : τ}
  {l : Label τ} {p : Progress} {t r : RefreshTokenRow} {start : TokenTable}

/-- The request has committed: a successor of the token it presents is issued. It stays so for the
rest of the run. -/
def Exchanged (s : State AuthDb AuthKey τ) (i : τ) : Prop := (s.tx i).phase = .ended true

instance : Decidable (Exchanged s i) := decidable_of_iff _ Phase.committed_iff

/-- Somebody has exchanged the token: a request that presents it has committed. -/
def Taken (q : τ → RefreshRequest) (s : State AuthDb AuthKey τ) (hash : String) : Prop :=
  ∃ j, Exchanged s j ∧ (q j).presented = some hash

/-- An id and a hash that are no longer free: of a row that was there, or issued since. A token once
used stays used, also after its row has been deleted. -/
def Used (q : τ → RefreshRequest) (start : TokenTable) (s : State AuthDb AuthKey τ)
    (id : UUID) (hash : String) : Prop :=
  ((∃ r ∈ start, r.id = id) ∨ ∃ j, Exchanged s j ∧ (q j).newId = id) ∧
    ((∃ r ∈ start, r.tokenHash = hash) ∨ ∃ j, Exchanged s j ∧ (q j).newHash = hash)

/-- Random ids and random tokens: no two requests get the same, and none gets a used one. The ids
are drawn by the database and the tokens by `secrets`. -/
structure FreshTokens (q : τ → RefreshRequest) (start : TokenTable) : Prop where
  id_inj : ∀ i j, (q i).newId = (q j).newId → i = j
  hash_inj : ∀ i j, (q i).newHash = (q j).newHash → i = j
  id_new : ∀ i, ∀ r ∈ start, r.id ≠ (q i).newId
  hash_new : ∀ i, ∀ r ∈ start, r.tokenHash ≠ (q i).newHash

/-- The row is the one a request has read: no other row has or will have its id or its hash. -/
structure Known (q : τ → RefreshRequest) (start : TokenTable) (s : State AuthDb AuthKey τ)
    (i : τ) (t : RefreshTokenRow) : Prop where
  presented : (q i).presented = some t.tokenHash
  used : Used q start s t.id t.tokenHash
  sole : ∀ r ∈ s.db.tokens, r.id = t.id ∨ r.tokenHash = t.tokenHash → r = t

/-- The row of the token, as far as the request has come: before the `DELETE` it is stored or taken
by another, while it is held it is stored, and a `DELETE` that missed it means that another has
taken it. -/
def RowAt (q : τ → RefreshRequest) (s : State AuthDb AuthKey τ) : Progress → Prop
  | .fresh => True
  | .read t => t ∈ s.db.tokens ∨ Taken q s t.tokenHash
  | .waiting t keys => (t ∈ s.db.tokens ∧ .token t.id ∈ keys) ∨
      t ∉ s.db.tokens ∧ Taken q s t.tokenHash
  | .held t => t ∈ s.db.tokens
  | .missed t => t ∉ s.db.tokens ∧ Taken q s t.tokenHash
  | .exchanged t => t ∉ s.db.tokens
  | .finished => True

/-- What a request has read and locked, in the state of the system. `holds` ties the locks of the
system to the stage: a request holds the row of its token exactly in the one stage that says so. -/
structure RequestAt (q : τ → RefreshRequest) (start : TokenTable) (s : State AuthDb AuthKey τ)
    (i : τ) (p : Progress) : Prop where
  place : RefreshTx (q i) p (s.tx i)
  known : ∀ t, p.token = some t → Known q start s i t
  row : RowAt q s p
  holds : ∀ id, s.holder (.token id) = some i ↔ ∃ t, p = .held t ∧ t.id = id

/-! ## What stays

Reading and waiting change nothing that others rely on; the lemmas here carry the parts of the
invariant over such steps. -/

theorem Taken.mono {hash : String} (h : Taken q s hash)
    (hex : ∀ j, Exchanged s j → Exchanged s' j) : Taken q s' hash := by
  obtain ⟨j, hj, hq⟩ := h
  exact ⟨j, hex j hj, hq⟩

theorem Used.mono {id : UUID} {hash : String} (h : Used q start s id hash)
    (hex : ∀ j, Exchanged s j → Exchanged s' j) : Used q start s' id hash :=
  ⟨h.1.imp_right fun ⟨j, hj, hq⟩ => ⟨j, hex j hj, hq⟩,
    h.2.imp_right fun ⟨j, hj, hq⟩ => ⟨j, hex j hj, hq⟩⟩

/-- Nothing a request has read is issued later: the random values of a request that has not
committed are still free. -/
theorem Used.ne (hfresh : FreshTokens q start) {id : UUID} {hash : String}
    (h : Used q start s id hash) (hi : ¬ Exchanged s i) :
    id ≠ (q i).newId ∧ hash ≠ (q i).newHash := by
  refine ⟨?_, ?_⟩
  · rintro rfl
    obtain ⟨r, hr, hid⟩ | ⟨j, hj, hid⟩ := h.1
    · exact hfresh.id_new i r hr hid
    · exact hi (hfresh.id_inj j i hid ▸ hj)
  · rintro rfl
    obtain ⟨r, hr, hhash⟩ | ⟨j, hj, hhash⟩ := h.2
    · exact hfresh.hash_new i r hr hhash
    · exact hi (hfresh.hash_inj j i hhash ▸ hj)

theorem Known.mono (h : Known q start s i t) (hdb : s'.db = s.db)
    (hex : ∀ j, Exchanged s j → Exchanged s' j) : Known q start s' i t :=
  ⟨h.presented, h.used.mono hex, hdb ▸ h.sole⟩

theorem RowAt.mono (h : RowAt q s p) (hdb : s'.db = s.db)
    (hex : ∀ j, Exchanged s j → Exchanged s' j) : RowAt q s' p := by
  cases p with
  | fresh => trivial
  | read t =>
    simp only [RowAt, hdb] at h ⊢
    exact h.imp_right fun h => h.mono hex
  | waiting t keys =>
    simp only [RowAt, hdb] at h ⊢
    exact h.imp_right fun h => ⟨h.1, h.2.mono hex⟩
  | held t =>
    simp only [RowAt, hdb] at h ⊢
    exact h
  | missed t =>
    simp only [RowAt, hdb] at h ⊢
    exact ⟨h.1, h.2.mono hex⟩
  | exchanged t =>
    simp only [RowAt, hdb] at h ⊢
    exact h
  | finished => trivial

theorem mem_tokenKeys {k : AuthKey} {id : UUID} {db : AuthDb} :
    k ∈ tokenKeys id db ↔ k = .token id ∧ ∃ r ∈ db.tokens, r.id = id := by
  simp only [tokenKeys, List.mem_map, List.mem_filter, decide_eq_true_eq]
  refine ⟨?_, ?_⟩
  · rintro ⟨r, ⟨hr, rfl⟩, rfl⟩
    exact ⟨rfl, r, hr, rfl⟩
  · rintro ⟨rfl, r, hr, rfl⟩
    exact ⟨r, ⟨hr, rfl⟩, rfl⟩

theorem user_of_mem_userKeys {k : AuthKey} {id : UUID} {db : AuthDb} (h : k ∈ userKeys id db) :
    ∃ id, k = .user id := by
  obtain ⟨u, -, rfl⟩ := List.mem_map.mp h
  exact ⟨u.id, rfl⟩

theorem getByHash_eq_some {db : AuthDb} {hash : String} (h : getByHash db hash = some t) :
    t ∈ db.tokens ∧ t.tokenHash = hash :=
  ⟨List.mem_of_find?_eq_some h, by simpa using List.find?_some h⟩

/-! ## A request's step

One lemma for each statement, and the step of a request put together from them. A request that is
aborted drops out, with its locks. -/

/-- A request that has not come to hold its row holds none, whatever it turns to next. -/
theorem RequestAt.holds_none (h : RequestAt q start s i p) (hp : ∀ t, p ≠ .held t)
    {p' : Progress} (hp' : ∀ t, p' ≠ .held t) (id : UUID) :
    s.holder (.token id) = some i ↔ ∃ t, p' = .held t ∧ t.id = id := by
  refine (h.holds id).trans (iff_of_false ?_ ?_)
  · rintro ⟨t, ht, -⟩
    exact hp t ht
  · rintro ⟨t, ht, -⟩
    exact hp' t ht

section Step

variable [DecidableEq τ]

/-- What is exchanged stays so: a transaction that has ended takes no step. -/
theorem Exchanged.step (h : Exchanged s j) (hs : s.step l = some s') : Exchanged s' j := by
  by_cases hj : j = l.who
  · subst hj
    cases l with
    | run i => simp [State.step, State.runStep, show (s.tx i).phase = _ from h] at hs
    | abort i => simp [State.step, show (s.tx i).phase = _ from h] at hs
  · rw [Exchanged, State.tx_of_ne hs hj]
    exact h

/-- A step that leaves the tables alone. -/
theorem requestAt_of_step (hs : s.step l = some s') (hdb : s'.db = s.db)
    (hplace : RefreshTx (q i) p (s'.tx i)) (hknown : ∀ t, p.token = some t → Known q start s i t)
    (hrow : RowAt q s p)
    (hholds : ∀ id, s'.holder (.token id) = some i ↔ ∃ t, p = .held t ∧ t.id = id) :
    RequestAt q start s' i p :=
  ⟨hplace, fun t ht => (hknown t ht).mono hdb fun _ hj => hj.step hs,
    hrow.mono hdb fun _ hj => hj.step hs, hholds⟩

/-- A step inside the transaction that locks nothing. -/
theorem RequestAt.goto (h : RequestAt q start s i p) {phase : Phase AuthDb AuthKey}
    (hs : s.step (.run i) = some (s.goto i phase))
    (hplace : RefreshTx (q i) p ⟨phase, (s.tx i).change⟩) :
    RequestAt q start (s.goto i phase) i p := by
  refine requestAt_of_step hs rfl ?_ h.known h.row h.holds
  rw [State.goto_tx]
  exact hplace

theorem RequestAt.wrote (h : RequestAt q start s i p) {change : AuthDb → AuthDb}
    {rest : Program AuthDb AuthKey} (hs : s.step (.run i) = some (s.wrote i change rest))
    (hplace : RefreshTx (q i) p ⟨.running rest, fun db => change ((s.tx i).change db)⟩) :
    RequestAt q start (s.wrote i change rest) i p := by
  refine requestAt_of_step hs rfl ?_ h.known h.row h.holds
  rw [State.wrote_tx]
  exact hplace

theorem requestAt_finished : RequestAt q start (s.finish i s.db false) i .finished := by
  refine ⟨?_, fun t ht => (by cases ht), trivial, fun id => ?_⟩
  · rw [State.finish_tx]
    exact .finished _
  · apply iff_of_false State.finish_holder_self
    rintro ⟨t, ht, -⟩
    cases ht

end Step

/-! ## A commit -/

theorem touchTx_ne_commit {q : RefreshRequest} {u : AuthUser} : touchTx q u ≠ .commit :=
  fun h => by cases h

theorem createTx_ne_commit {q : RefreshRequest} {u : AuthUser} : createTx q u ≠ .commit :=
  fun h => by cases h

theorem checkUser_ne_commit {q : RefreshRequest} {u : Option AuthUser} :
    checkUser q t u ≠ .commit := by
  cases u with
  | none => exact fun h => by cases h
  | some u =>
    simp only [checkUser]
    split <;> exact fun h => by cases h

theorem checkToken_ne_commit {q : RefreshRequest} {o : Option RefreshTokenRow} :
    checkToken q o ≠ .commit := by
  cases o with
  | none => exact fun h => by cases h
  | some t =>
    simp only [checkToken]
    split <;> exact fun h => by cases h

theorem refreshTx_ne_commit {q : RefreshRequest} : refreshTx q ≠ .commit := by
  simp only [refreshTx]
  split <;> exact fun h => by cases h

/-- What a request commits. -/
theorem RefreshTx.commit_cases {q : RefreshRequest} {tx : Tx AuthDb AuthKey}
    (h : RefreshTx q p tx) (hp : tx.phase = .running .commit) :
    ∃ u held users, Locked p held ∧
      tx.change = fun db => touchUsers users q.touchedAt (rotated q u held db) := by
  cases h with
  | start => exact absurd (Phase.running.inj hp) refreshTx_ne_commit
  | checking t => exact absurd (Phase.running.inj hp) checkToken_ne_commit
  | user t u => exact absurd (Phase.running.inj hp) checkUser_ne_commit
  | creating p u held => exact absurd (Phase.running.inj hp) createTx_ne_commit
  | inserted p u held => exact absurd (Phase.running.inj hp) touchTx_ne_commit
  | committing p u held users hl => exact ⟨u, held, users, hl, rfl⟩
  | _ => cases hp

/-- The rows a request has deleted. -/
def Deleted (p : Progress) (r : RefreshTokenRow) : Prop := ∃ t, p = .held t ∧ r.id = t.id

theorem Locked.mem_iff {held : List AuthKey} (h : Locked p held) :
    .token r.id ∈ held ↔ Deleted p r := by
  cases p with
  | held t =>
    refine ⟨fun hm => ⟨t, rfl, AuthKey.token.inj (h.2 _ hm)⟩, ?_⟩
    rintro ⟨t', ht', hid⟩
    cases ht'
    obtain ⟨k, hk⟩ := List.exists_mem_of_ne_nil held h.1
    rw [hid, ← h.2 k hk]
    exact hk
  | missed t =>
    refine iff_of_false ?_ ?_
    · rw [show held = [] from h]
      exact List.not_mem_nil
    · rintro ⟨t', ht', -⟩
      cases ht'
  | _ => exact h.elim

/-- The rows a commit leaves. -/
theorem RequestAt.mem_change (h : RequestAt q start s i p)
    (hp : (s.tx i).phase = .running .commit) {db : AuthDb}
    (hr : r ∈ ((s.tx i).change db).tokens) :
    r ∈ db.tokens ∧ ¬ Deleted p r ∨ ∃ userId, r = (q i).issued userId := by
  obtain ⟨u, held, users, hl, hch⟩ := h.place.commit_cases hp
  rw [hch] at hr
  obtain hr | rfl := TokenTable.mem_of_mem_insert hr
  · obtain ⟨hr, hdel⟩ := TokenTable.mem_delete.mp hr
    exact Or.inl ⟨hr, fun hd => of_decide_eq_false hdel (hl.mem_iff.mpr hd)⟩
  · exact Or.inr ⟨u.id, rfl⟩

/-- What a commit does not delete stays. -/
theorem RequestAt.mem_change_of_mem (h : RequestAt q start s i p)
    (hp : (s.tx i).phase = .running .commit) {db : AuthDb} (hr : r ∈ db.tokens)
    (hd : ¬ Deleted p r) : r ∈ ((s.tx i).change db).tokens := by
  obtain ⟨u, held, users, hl, hch⟩ := h.place.commit_cases hp
  rw [hch]
  refine TokenTable.mem_insert_of_mem (TokenTable.mem_delete.mpr ⟨hr, ?_⟩)
  exact decide_eq_false fun hm => hd (hl.mem_iff.mp hm)

/-- A request that commits has read a token, and holds its row or has found it gone. -/
theorem RequestAt.of_commit (h : RequestAt q start s i p)
    (hp : (s.tx i).phase = .running .commit) : ∃ t, p = .held t ∨ p = .missed t := by
  obtain ⟨u, held, users, hl, -⟩ := h.place.commit_cases hp
  cases p with
  | held t => exact ⟨t, Or.inl rfl⟩
  | missed t => exact ⟨t, Or.inr rfl⟩
  | _ => exact hl.elim

/-- No request has read a row that is issued later: the values of that row are free as long as its
request has not committed. -/
theorem Known.ne_issued (h : Known q start s j t) (hfresh : FreshTokens q start)
    (hi : ¬ Exchanged s i) (userId : UUID) :
    ¬ (((q i).issued userId).id = t.id ∨ ((q i).issued userId).tokenHash = t.tokenHash) := by
  obtain ⟨hid, hhash⟩ := h.used.ne hfresh hi
  exact not_or.mpr ⟨Ne.symm hid, Ne.symm hhash⟩

theorem not_exchanged_of_commit (hp : (s.tx i).phase = .running .commit) : ¬ Exchanged s i := by
  intro h
  rw [Exchanged, hp] at h
  cases h

/-- A row that is gone stays gone: no commit brings back an id and a hash that are used. -/
theorem Known.not_mem_commit (hfresh : FreshTokens q start) (hi : RequestAt q start s i p)
    (hp : (s.tx i).phase = .running .commit) (h : Known q start s j t)
    (ht : t ∉ s.db.tokens) : t ∉ (s.view i).tokens := by
  intro hm
  obtain ⟨hm, -⟩ | ⟨userId, heq⟩ := hi.mem_change hp hm
  · exact ht hm
  · exact h.ne_issued hfresh (not_exchanged_of_commit hp) userId (Or.inl (by rw [← heq]))

section Commit

variable [DecidableEq τ] (hfresh : FreshTokens q start) (hi : RequestAt q start s i p)
  (hp : (s.tx i).phase = .running .commit)

include hfresh hi hp

/-- What is read stays known, whichever request commits. -/
theorem Known.commit (h : Known q start s j t) :
    Known q start (s.finish i (s.view i) true) j t := by
  have hs : s.step (.run i) = some (s.finish i (s.view i) true) := by
    simp only [State.step, State.runStep, hp]
  refine ⟨h.presented, h.used.mono fun _ hj => hj.step hs, fun r hr hor => ?_⟩
  obtain ⟨hr, -⟩ | ⟨userId, rfl⟩ := hi.mem_change hp hr
  · exact h.sole r hr hor
  · exact absurd hor (h.ne_issued hfresh (not_exchanged_of_commit hp) userId)

/-- The request's own token is exchanged: its row is deleted, by this request or by a faster one. -/
theorem RequestAt.commit (ht : p.token = some t) :
    RequestAt q start (s.finish i (s.view i) true) i (.exchanged t) := by
  refine ⟨?_, fun t' ht' => ?_, ?_, fun id => iff_of_false State.finish_holder_self ?_⟩
  · rw [State.finish_tx]
    exact .exchanged t _
  · obtain rfl := Option.some.inj ht'
    exact (hi.known t ht).commit hfresh hi hp
  · show t ∉ (s.view i).tokens
    obtain ⟨t', rfl | rfl⟩ := hi.of_commit hp
    · obtain rfl := Option.some.inj ht
      intro hm
      obtain ⟨-, hd⟩ | ⟨userId, heq⟩ := hi.mem_change hp hm
      · exact hd ⟨t', rfl, rfl⟩
      · exact (hi.known t' rfl).ne_issued hfresh (not_exchanged_of_commit hp) userId
          (Or.inl (by rw [← heq]))
    · obtain rfl := Option.some.inj ht
      exact (hi.known t' rfl).not_mem_commit hfresh hi hp hi.row.1
  · rintro ⟨t', ht', -⟩
    cases ht'

/-- The token another request has read, after the commit: it is the one that has just been
exchanged, and is taken, or its row is where it was. -/
theorem RequestAt.of_commit_ne {p' : Progress} (h : RequestAt q start s j p') (hj : j ≠ i) :
    RequestAt q start (s.finish i (s.view i) true) j p' := by
  have hs : s.step (.run i) = some (s.finish i (s.view i) true) := by
    simp only [State.step, State.runStep, hp]
  have hex : ∀ k, Exchanged s k → Exchanged (s.finish i (s.view i) true) k :=
    fun _ hk => hk.step hs
  -- a row that the commit takes is taken by its owner
  have hkept : ∀ t, p'.token = some t → t ∈ s.db.tokens →
      t ∈ (s.view i).tokens ∨
        t ∉ (s.view i).tokens ∧ Taken q (s.finish i (s.view i) true) t.tokenHash := by
    intro t ht hm
    by_cases hm' : t ∈ (s.view i).tokens
    · exact Or.inl hm'
    refine Or.inr ⟨hm', i, ?_, ?_⟩
    · rw [Exchanged, State.finish_tx]
    by_contra hne
    refine hm' (hi.mem_change_of_mem hp hm ?_)
    rintro ⟨t', rfl, hid⟩
    obtain rfl := (h.known t ht).sole t' hi.row (Or.inl hid.symm)
    exact hne (hi.known t' rfl).presented
  refine ⟨State.tx_of_ne hs hj ▸ h.place, fun t ht => (h.known t ht).commit hfresh hi hp, ?_,
    fun id => ?_⟩
  · cases p' with
    | fresh => trivial
    | read t =>
      obtain hm | htaken := h.row
      · exact (hkept t rfl hm).imp_right fun h => h.2
      · exact Or.inr (htaken.mono hex)
    | waiting t keys =>
      obtain ⟨hm, hk⟩ | ⟨hm, htaken⟩ := h.row
      · exact (hkept t rfl hm).imp_left fun h => ⟨h, hk⟩
      · exact Or.inr ⟨(h.known t rfl).not_mem_commit hfresh hi hp hm, htaken.mono hex⟩
    | held t =>
      apply hi.mem_change_of_mem hp h.row
      rintro ⟨t', rfl, hid⟩
      have hheld := (h.holds t.id).mpr ⟨t, rfl, rfl⟩
      have hheld' := (hi.holds t'.id).mpr ⟨t', rfl, rfl⟩
      rw [hid] at hheld
      exact hj (Option.some.inj (hheld.symm.trans hheld'))
    | missed t =>
      exact ⟨(h.known t rfl).not_mem_commit hfresh hi hp h.row.1, h.row.2.mono hex⟩
    | exchanged t => exact (h.known t rfl).not_mem_commit hfresh hi hp h.row
    | finished => trivial
  · rw [State.holder_iff_of_ne hs hj]
    exact h.holds id

end Commit

/-! ## The steps before it

From the look-up to the `DELETE`: each of these steps leaves the tables as they are. -/

/-- Every row was there or has been issued: no row has an id or a hash that is still free. -/
def Stocked (q : τ → RefreshRequest) (start : TokenTable) (s : State AuthDb AuthKey τ) : Prop :=
  ∀ r ∈ s.db.tokens, Used q start s r.id r.tokenHash

/-- What a lookup returns is known: no other row has its id or its hash, now or later. -/
theorem Stocked.known (h : Stocked q start s) (ht : t ∈ s.db.tokens)
    (hq : (q i).presented = some t.tokenHash) : Known q start s i t := by
  refine ⟨hq, h t ht, fun r hr hor => ?_⟩
  obtain hid | hhash := hor
  · exact TokenTable.eq_of_id_eq hr ht hid
  · exact TokenTable.eq_of_hash_eq hr ht hhash

section Moves

variable [DecidableEq τ]

/-- The lock of a row that is found: from here on no other request can delete it. -/
theorem RequestAt.hold (h : RequestAt q start s i p) (hread : p.token = some t)
    {keys held : List AuthKey} {u : AuthUser}
    (hs : s.step (.run i) = some (s.hold i (.token t.id) (.locking false (tokenKeys t.id)
      (fun held _ => .write (deleteTokens held) (createTx (q i) u)) keys held)))
    (hplace : RefreshTx (q i) (.held t) ⟨.locking false (tokenKeys t.id)
      (fun held _ => .write (deleteTokens held) (createTx (q i) u)) keys held, (s.tx i).change⟩)
    (hp : ∀ t', p = .held t' → t' = t) (hm : ∃ r ∈ s.db.tokens, r.id = t.id) :
    RequestAt q start (s.hold i (.token t.id) (.locking false (tokenKeys t.id)
      (fun held _ => .write (deleteTokens held) (createTx (q i) u)) keys held)) i (.held t) := by
  have hknown := h.known t hread
  obtain ⟨r, hr, hid⟩ := hm
  obtain rfl := hknown.sole r hr (Or.inl hid)
  refine requestAt_of_step hs rfl ?_ (fun t' ht' => ?_) hr fun id => ?_
  · rw [State.hold_tx]
    exact hplace
  · obtain rfl := Option.some.inj ht'
    exact hknown
  · simp only [State.hold]
    by_cases hk : id = r.id
    · subst hk
      rw [Function.update_self]
      exact iff_of_true rfl ⟨r, rfl, rfl⟩
    · rw [Function.update_of_ne fun hk' => hk (AuthKey.token.inj hk'), h.holds]
      refine iff_of_false ?_ ?_
      · rintro ⟨t', ht', rfl⟩
        exact hk (hp t' ht' ▸ rfl)
      · rintro ⟨t', ht', rfl⟩
        cases ht'
        exact hk rfl

/-- The lock of a user's row, which the claim on the token is not touched by. -/
theorem RequestAt.hold_user (h : RequestAt q start s i p) {phase : Phase AuthDb AuthKey} {id : UUID}
    (hs : s.step (.run i) = some (s.hold i (.user id) phase))
    (hplace : RefreshTx (q i) p ⟨phase, (s.tx i).change⟩) :
    RequestAt q start (s.hold i (.user id) phase) i p := by
  refine requestAt_of_step hs rfl ?_ h.known h.row fun id' => ?_
  · rw [State.hold_tx]
    exact hplace
  · rw [← h.holds]
    simp only [State.hold]
    rw [Function.update_of_ne fun hk => by cases hk]

/-- The lookup of the token: the row is read as it is committed, and nothing is locked. -/
theorem RequestAt.step_start (h : RequestAt q start s i .fresh) (hst : Stocked q start s)
    (htx : s.tx i = ⟨.running (refreshTx (q i)), id⟩) (hs : s.step (.run i) = some s') :
    ∃ p', RequestAt q start s' i p' := by
  have hs' := hs
  rcases hq : (q i).presented with _ | hash
  · simp only [State.step, State.runStep, htx, refreshTx, hq] at hs'
    obtain rfl := Option.some.inj hs'
    exact ⟨.finished, requestAt_finished⟩
  simp only [State.step, State.runStep, htx, refreshTx, hq] at hs'
  obtain rfl := Option.some.inj hs'
  have hview : s.view i = s.db := by
    rw [State.view, htx]
    rfl
  rw [hview] at hs ⊢
  rcases hget : getByHash s.db hash with _ | t
  · rw [hget] at hs
    refine ⟨.fresh, h.goto hs ?_⟩
    exact .failed .fresh _
  · rw [hget] at hs
    obtain ⟨ht, rfl⟩ := getByHash_eq_some hget
    refine ⟨.read t, requestAt_of_step hs rfl ?_ (fun t' ht' => ?_) (Or.inl ht)
      (h.holds_none (fun t' ht' => by cases ht') fun t' ht' => by cases ht')⟩
    · rw [State.goto_tx, htx]
      exact .checking t
    · obtain rfl := Option.some.inj ht'
      exact hst.known ht hq

/-- The lookup of the user: the token has not expired, and its user is read. -/
theorem RequestAt.step_checking (h : RequestAt q start s i (.read t))
    (htx : s.tx i = ⟨.running (checkToken (q i) (some t)), id⟩)
    (hs : s.step (.run i) = some s') : ∃ p', RequestAt q start s' i p' := by
  have hs' := hs
  by_cases hexp : t.expiresAt < (q i).checkedAt
  · simp only [State.step, State.runStep, htx, checkToken, if_pos hexp] at hs'
    obtain rfl := Option.some.inj hs'
    exact ⟨.finished, requestAt_finished⟩
  simp only [State.step, State.runStep, htx, checkToken, if_neg hexp] at hs'
  obtain rfl := Option.some.inj hs'
  refine ⟨.read t, h.goto hs ?_⟩
  rcases (s.view i).users.find? t.userId with _ | u
  · exact .failed _ _
  · rw [htx]
    exact .user t u

/-- The search of the `DELETE`: the row is found, or another request has deleted it in the
meantime. -/
theorem RequestAt.step_user (h : RequestAt q start s i (.read t)) {u : AuthUser}
    (htx : s.tx i = ⟨.running (checkUser (q i) t (some u)), id⟩)
    (hs : s.step (.run i) = some s') : ∃ p', RequestAt q start s' i p' := by
  have hs' := hs
  by_cases hactive : u.isActive = true
  swap
  · simp only [State.step, State.runStep, htx, checkUser, if_neg hactive] at hs'
    obtain rfl := Option.some.inj hs'
    exact ⟨.finished, requestAt_finished⟩
  simp only [State.step, State.runStep, htx, checkUser, if_pos hactive, rotateTx] at hs'
  obtain rfl := Option.some.inj hs'
  have hview : s.view i = s.db := by
    rw [State.view, htx]
    rfl
  rw [hview] at hs ⊢
  refine ⟨.waiting t (tokenKeys t.id s.db), requestAt_of_step hs rfl ?_ h.known ?_
    (h.holds_none (fun t' ht' => by cases ht') fun t' ht' => by cases ht')⟩
  · rw [State.goto_tx, htx]
    exact .waiting t u _ fun k hk => (mem_tokenKeys.mp hk).1
  · by_cases ht : t ∈ s.db.tokens
    · exact Or.inl ⟨ht, mem_tokenKeys.mpr ⟨rfl, t, ht, rfl⟩⟩
    · exact Or.inr ⟨ht, h.row.resolve_left ht⟩

/-- The wait of the `DELETE`: it gets the lock, or the holder has committed and the row is gone. -/
theorem RequestAt.step_waiting {keys : List AuthKey} (h : RequestAt q start s i (.waiting t keys))
    {u : AuthUser} (hkeys : ∀ k ∈ keys, k = .token t.id)
    (htx : s.tx i = ⟨.locking false (tokenKeys t.id)
      (fun held _ => .write (deleteTokens held) (createTx (q i) u)) keys [], id⟩)
    (hs : s.step (.run i) = some s') : ∃ p', RequestAt q start s' i p' := by
  have hs' := hs
  have hview : s.view i = s.db := by
    rw [State.view, htx]
    rfl
  have hwaits : ∀ t', Progress.waiting t keys ≠ .held t' := fun t' ht' => by cases ht'
  cases keys with
  | nil =>
    simp only [State.step, State.runStep, htx] at hs'
    obtain rfl := Option.some.inj hs'
    obtain ⟨-, hk⟩ | hrow := h.row
    · exact absurd hk List.not_mem_nil
    refine ⟨.missed t, requestAt_of_step hs rfl ?_ h.known hrow
      (h.holds_none hwaits fun t' ht' => by cases ht')⟩
    rw [State.goto_tx, htx]
    exact .deleting _ u [] rfl
  | cons k keys =>
    obtain rfl := hkeys k (List.mem_cons_self ..)
    have hkeys' : ∀ k ∈ keys, k = .token t.id :=
      fun k hk => hkeys k (List.mem_cons_of_mem _ hk)
    simp only [State.step, State.runStep, htx, Bool.false_and, Bool.false_eq_true, if_false]
      at hs'
    split at hs'
    · cases hs'
    split at hs'
    · next hk =>
      obtain rfl := Option.some.inj hs'
      rw [hview] at hk
      refine ⟨.held t, h.hold rfl hs ?_ (fun t' ht' => by cases ht') (mem_tokenKeys.mp hk).2⟩
      rw [htx]
      refine .locking t u keys _ hkeys' ⟨List.cons_ne_nil _ _, fun k hk => ?_⟩
      exact List.mem_singleton.mp hk
    · next hk =>
      obtain rfl := Option.some.inj hs'
      rw [hview, mem_tokenKeys] at hk
      have hgone : t ∉ s.db.tokens := fun ht => hk ⟨rfl, t, ht, rfl⟩
      refine ⟨.waiting t keys, requestAt_of_step hs rfl ?_ h.known ?_
        (h.holds_none hwaits fun t' ht' => by cases ht')⟩
      · rw [State.goto_tx, htx]
        exact .waiting t u keys hkeys'
      · obtain ⟨ht, -⟩ | hrow := h.row
        · exact absurd ht hgone
        · exact Or.inr hrow

/-- The `DELETE` once it holds the row: nobody else can have taken it. -/
theorem RequestAt.step_locking {keys held : List AuthKey} (h : RequestAt q start s i (.held t))
    {u : AuthUser} (hkeys : ∀ k ∈ keys, k = .token t.id) (hl : Locked (.held t) held)
    (htx : s.tx i = ⟨.locking false (tokenKeys t.id)
      (fun held _ => .write (deleteTokens held) (createTx (q i) u)) keys held, id⟩)
    (hs : s.step (.run i) = some s') : ∃ p', RequestAt q start s' i p' := by
  have hs' := hs
  cases keys with
  | nil =>
    simp only [State.step, State.runStep, htx] at hs'
    obtain rfl := Option.some.inj hs'
    refine ⟨.held t, h.goto hs ?_⟩
    rw [htx]
    exact .deleting _ u held hl
  | cons k keys =>
    obtain rfl := hkeys k (List.mem_cons_self ..)
    have hkeys' : ∀ k ∈ keys, k = .token t.id :=
      fun k hk => hkeys k (List.mem_cons_of_mem _ hk)
    simp only [State.step, State.runStep, htx, Bool.false_and, Bool.false_eq_true, if_false]
      at hs'
    split at hs'
    · cases hs'
    split at hs'
    · next hk =>
      obtain rfl := Option.some.inj hs'
      refine ⟨.held t, h.hold rfl hs ?_ (fun t' ht' => (Progress.held.inj ht').symm)
        ⟨t, h.row, rfl⟩⟩
      rw [htx]
      refine .locking t u keys _ hkeys' ⟨by simp, fun k hk => ?_⟩
      obtain hk | hk := List.mem_append.mp hk
      · exact hl.2 k hk
      · exact List.mem_singleton.mp hk
    · obtain rfl := Option.some.inj hs'
      refine ⟨.held t, h.goto hs ?_⟩
      rw [htx]
      exact .locking t u keys held hkeys' hl

/-- The `UPDATE` of the user: the last statement, after which only the commit is left. -/
theorem RequestAt.step_touching {keys users held : List AuthKey} (h : RequestAt q start s i p)
    {u : AuthUser} (hl : Locked p held)
    (htx : s.tx i = ⟨.locking false (userKeys u.id)
      (fun users _ => .write (touchUsers users (q i).touchedAt) .commit) keys users,
      rotated (q i) u held⟩)
    (hs : s.step (.run i) = some s') : ∃ p', RequestAt q start s' i p' := by
  have hs' := hs
  cases keys with
  | nil =>
    simp only [State.step, State.runStep, htx] at hs'
    obtain rfl := Option.some.inj hs'
    refine ⟨p, h.goto hs ?_⟩
    rw [htx]
    exact .touched p u held users hl
  | cons k keys =>
    simp only [State.step, State.runStep, htx, Bool.false_and, Bool.false_eq_true, if_false]
      at hs'
    split at hs'
    · cases hs'
    split at hs'
    · next hk =>
      obtain rfl := Option.some.inj hs'
      obtain ⟨id, rfl⟩ := user_of_mem_userKeys hk
      refine ⟨p, h.hold_user hs ?_⟩
      rw [htx]
      exact .touching p u held keys _ hl
    · obtain rfl := Option.some.inj hs'
      refine ⟨p, h.goto hs ?_⟩
      rw [htx]
      exact .touching p u held keys users hl

/-- **A request's step** keeps it in place: whatever statement it is at, the next stage is one of
those the invariant knows. -/
theorem RequestAt.step (h : RequestAt q start s i p) (hfresh : FreshTokens q start)
    (hst : Stocked q start s) (hs : s.step (.run i) = some s') :
    ∃ p', RequestAt q start s' i p' := by
  have hs' := hs
  have hplace := h.place
  generalize htx : s.tx i = tx at hplace
  -- phase by phase, in the order of the exchange; each leads to the next or to a rejection
  cases hplace with
  | start => exact h.step_start hst htx hs
  | checking t => exact h.step_checking htx hs
  | user t u => exact h.step_user htx hs
  | waiting t u keys hkeys => exact h.step_waiting hkeys htx hs
  | locking t u keys held hkeys hl => exact h.step_locking hkeys hl htx hs
  | deleting p u held hl =>
    simp only [State.step, State.runStep, htx] at hs'
    obtain rfl := Option.some.inj hs'
    refine ⟨p, h.wrote hs ?_⟩
    rw [htx]
    exact .creating p u held hl
  | creating p u held hl =>
    simp only [State.step, State.runStep, htx, createTx] at hs'
    obtain rfl := Option.some.inj hs'
    refine ⟨p, h.goto hs ?_⟩
    split
    · exact .failed _ _
    · rw [htx]
      exact .inserting p u held hl
  | inserting p u held hl =>
    simp only [State.step, State.runStep, htx] at hs'
    obtain rfl := Option.some.inj hs'
    refine ⟨p, h.wrote hs ?_⟩
    rw [htx]
    exact .inserted p u held hl
  | inserted p u held hl =>
    simp only [State.step, State.runStep, htx, touchTx] at hs'
    obtain rfl := Option.some.inj hs'
    refine ⟨p, h.goto hs ?_⟩
    rw [htx]
    exact .touching p u held _ [] hl
  | touching p u held keys users hl => exact h.step_touching hl htx hs
  | touched p u held users hl =>
    simp only [State.step, State.runStep, htx] at hs'
    obtain rfl := Option.some.inj hs'
    refine ⟨p, h.wrote hs ?_⟩
    rw [htx]
    exact .committing p u held users hl
  | committing p u held users hl =>
    have hp : (s.tx i).phase = .running .commit := by rw [htx]
    simp only [State.step, State.runStep, htx] at hs'
    obtain rfl := Option.some.inj hs'
    obtain ⟨t, ht⟩ := h.of_commit hp
    refine ⟨.exchanged t, h.commit hfresh hp ?_⟩
    -- whether the exchange deletes the old token or finds it gone
    obtain rfl | rfl := ht
    · rfl
    · rfl
  | failed p change =>
    simp only [State.step, State.runStep, htx] at hs'
    obtain rfl := Option.some.inj hs'
    exact ⟨.finished, requestAt_finished⟩
  | exchanged t change =>
    simp only [State.step, State.runStep, htx] at hs'
    cases hs'
  | finished change =>
    simp only [State.step, State.runStep, htx] at hs'
    cases hs'

end Moves

/-! ## Every interleaving

The invariant of all requests, by induction over the steps, and from it what a commit does to the
tokens of a run. -/

/-- The requests about to start, on tables that are committed and with no lock held. -/
def refreshes (q : τ → RefreshRequest) (db : AuthDb) : State AuthDb AuthKey τ :=
  .start db fun i => refreshTx (q i)

/-- Every request is in place, and every row was there or has been issued. This is the invariant of
a run. -/
structure RequestsAt (q : τ → RefreshRequest) (start : TokenTable) (s : State AuthDb AuthKey τ) :
    Prop where
  at_place : ∀ i, ∃ p, RequestAt q start s i p
  stocked : Stocked q start s

theorem requestsAt_refreshes {db : AuthDb} : RequestsAt q db.tokens (refreshes q db) := by
  refine ⟨fun i => ⟨.fresh, .start, fun t ht => (by cases ht), trivial, fun id => ?_⟩,
    fun r hr => ⟨Or.inl ⟨r, hr, rfl⟩, Or.inl ⟨r, hr, rfl⟩⟩⟩
  refine iff_of_false (fun h => by cases h) ?_
  rintro ⟨t, ht, -⟩
  cases ht

/-- The token of an exchange is known and gone: its row is no longer stored. -/
theorem RequestsAt.of_exchanged (h : RequestsAt q start s) (hi : Exchanged s i) :
    ∃ t, Known q start s i t ∧ t ∉ s.db.tokens := by
  obtain ⟨p, hp⟩ := h.at_place i
  have hplace := hp.place
  rw [Exchanged] at hi
  generalize s.tx i = tx at hplace hi
  cases hplace with
  | exchanged t change => exact ⟨t, hp.known t rfl, hp.row⟩
  | _ => cases hi

/-- The token is another's than the one that is issued next: nobody has exchanged a token before it
was issued. -/
theorem RequestsAt.presented_ne (h : RequestsAt q start s) (hfresh : FreshTokens q start)
    (hi : ¬ Exchanged s i) (hj : Exchanged s j) : (q j).presented ≠ some (q i).newHash := by
  obtain ⟨t, ht, -⟩ := h.of_exchanged hj
  rw [ht.presented]
  exact fun heq => (ht.used.ne hfresh hi).2 (Option.some.inj heq)

/-- A token descends from another: it was issued in exchange for it, or for one that descends
from it. -/
inductive Descends (q : τ → RefreshRequest) (s : State AuthDb AuthKey τ) (root : String) :
    String → Prop where
  | root : Descends q s root root
  | exchange (i : τ) (hash : String) : Exchanged s i → (q i).presented = some hash →
      Descends q s root hash → Descends q s root (q i).newHash

/-- No two requests have exchanged the same token, and no two live tokens descend from the
same. -/
structure SingleUse (q : τ → RefreshRequest) (s : State AuthDb AuthKey τ) : Prop where
  once : ∀ i j, Exchanged s i → Exchanged s j → (q i).presented = (q j).presented → i = j
  live : ∀ root, ∀ r ∈ s.db.tokens, ∀ r' ∈ s.db.tokens, Descends q s root r.tokenHash →
    Descends q s root r'.tokenHash → r = r'

/-- The request that commits an exchange finds the row of its token still committed. -/
def StillStored (q : τ → RefreshRequest) (s : State AuthDb AuthKey τ) : Label τ → Prop
  | .run i => (s.tx i).phase = .running .commit →
      ∃ r ∈ s.db.tokens, (q i).presented = some r.tokenHash
  | .abort _ => True

theorem singleUse_refreshes {db : AuthDb} : SingleUse q (refreshes q db) := by
  have hno : ∀ i, ¬ Exchanged (refreshes q db) i := fun i h => by cases h
  have hroot : ∀ {root hash}, Descends q (refreshes q db) root hash → hash = root := by
    intro root hash h
    cases h with
    | root => rfl
    | exchange i h hi => exact absurd hi (hno i)
  refine ⟨fun i j hi => absurd hi (hno i), fun root r hr r' hr' hd hd' => ?_⟩
  exact TokenTable.eq_of_hash_eq hr hr' ((hroot hd).trans (hroot hd').symm)

/-- The next token descends from itself alone, as nobody has exchanged anything for it yet. -/
theorem Descends.root_of_new (hfresh : FreshTokens q start) (hi : ¬ Exchanged s i)
    {root hash : String} (h : Descends q s root hash) (heq : hash = (q i).newHash) :
    root = (q i).newHash := by
  cases h with
  | root => exact heq
  | exchange j hash hj => exact absurd (hfresh.hash_inj j i heq ▸ hj) hi

/-- Nothing descends from the next token before it is issued. -/
theorem RequestsAt.descends_new (h : RequestsAt q start s) (hfresh : FreshTokens q start)
    (hi : ¬ Exchanged s i) {hash : String} (hd : Descends q s (q i).newHash hash) :
    hash = (q i).newHash := by
  induction hd with
  | root => rfl
  | exchange j hash hj hq _ ih =>
    subst ih
    exact absurd hq (h.presented_ne hfresh hi hj)

/-- A step that commits nothing keeps every token single-use. -/
theorem SingleUse.of_quiet (h : SingleUse q s) (hdb : s'.db = s.db)
    (hex : ∀ j, Exchanged s' j → Exchanged s j) : SingleUse q s' := by
  have hdesc : ∀ {root hash}, Descends q s' root hash → Descends q s root hash := by
    intro root hash hd
    induction hd with
    | root => exact .root
    | exchange j hash hj hq _ ih => exact .exchange j hash (hex j hj) hq ih
  refine ⟨fun i j hi hj hq => h.once i j (hex i hi) (hex j hj) hq,
    fun root r hr r' hr' hd hd' => ?_⟩
  rw [hdb] at hr hr'
  exact h.live root r hr r' hr' (hdesc hd) (hdesc hd')

section Run

variable [DecidableEq τ]

/-- **A step** of the system keeps every request in place: that of the request that moves by its own
lemma, the others since their rows are as before or taken. -/
theorem RequestsAt.step (h : RequestsAt q start s) (hfresh : FreshTokens q start)
    (hs : s.step l = some s') : RequestsAt q start s' := by
  have hex : ∀ j, Exchanged s j → Exchanged s' j := fun _ hj => hj.step hs
  obtain hdb | ⟨i, rfl, hp, rfl⟩ := State.db_step hs
  swap
  · obtain ⟨p, hi⟩ := h.at_place i
    refine ⟨fun j => ?_, fun r hr => ?_⟩
    · by_cases hj : j = i
      · subst hj
        exact hi.step hfresh h.stocked hs
      · obtain ⟨p', hp'⟩ := h.at_place j
        exact ⟨p', hi.of_commit_ne hfresh hp hp' hj⟩
    · obtain ⟨hr, -⟩ | ⟨userId, rfl⟩ := hi.mem_change hp hr
      · exact (h.stocked r hr).mono hex
      · have hi' : Exchanged (s.finish i (s.view i) true) i := by
          rw [Exchanged, State.finish_tx]
        exact ⟨Or.inr ⟨i, hi', rfl⟩, Or.inr ⟨i, hi', rfl⟩⟩
  refine ⟨fun j => ?_, fun r hr => (h.stocked r (hdb ▸ hr)).mono hex⟩
  obtain ⟨p, hp⟩ := h.at_place j
  by_cases hj : j = l.who
  · subst hj
    cases l with
    | run i => exact hp.step hfresh h.stocked hs
    | abort i =>
      obtain ⟨i', hl, -⟩ | ⟨i', hl, -, rfl⟩ := State.step_cases hs
      · cases hl
      · cases hl
        exact ⟨.finished, requestAt_finished⟩
  · refine ⟨p, requestAt_of_step hs hdb ?_ hp.known hp.row fun id => ?_⟩
    · rw [State.tx_of_ne hs hj]
      exact hp.place
    · rw [State.holder_iff_of_ne hs hj]
      exact hp.holds id

/-- What descends from a token after an exchange: what did so before, and the new token if the old
one did. -/
theorem RequestsAt.descends_commit (h : RequestsAt q start s) (hfresh : FreshTokens q start)
    (hp : (s.tx i).phase = .running .commit) (ht : Known q start s i t) {root hash : String}
    (hd : Descends q (s.finish i (s.view i) true) root hash) :
    Descends q s root hash ∨ hash = (q i).newHash ∧ Descends q s root t.tokenHash := by
  have hno := not_exchanged_of_commit hp
  induction hd with
  | root => exact Or.inl .root
  | exchange j hash hj hq _ ih =>
    by_cases hji : j = i
    · subst hji
      obtain rfl := Option.some.inj (hq.symm.trans ht.presented)
      obtain hd | ⟨heq, -⟩ := ih
      · exact Or.inr ⟨rfl, hd⟩
      · exact absurd heq (ht.used.ne hfresh hno).2
    · have hj' : Exchanged s j := by
        have hs : s.step (.run i) = some (s.finish i (s.view i) true) := by
          simp only [State.step, State.runStep, hp]
        rwa [Exchanged, State.tx_of_ne hs hji] at hj
      obtain hd | ⟨rfl, -⟩ := ih
      · exact Or.inl (.exchange j hash hj' hq hd)
      · exact absurd hq (h.presented_ne hfresh hno hj')

/-- **A commit** of a token whose row is still stored: it is the first exchange of the token, and
its successor takes the place of the row. -/
theorem RequestsAt.singleUse_commit (h : RequestsAt q start s) (hfresh : FreshTokens q start)
    (hi : RequestAt q start s i p) (hp : (s.tx i).phase = .running .commit)
    (hknown : Known q start s i t) (hpt : p.token = some t) (hone : SingleUse q s)
    (ht : t ∈ s.db.tokens) : SingleUse q (s.finish i (s.view i) true) := by
  have hs : s.step (.run i) = some (s.finish i (s.view i) true) := by
    simp only [State.step, State.runStep, hp]
  have hno := not_exchanged_of_commit hp
  -- nobody else has exchanged it
  have hfirst : ∀ j, Exchanged (s.finish i (s.view i) true) j →
      (q j).presented = (q i).presented → j = i := by
    intro j hj hq
    by_contra hji
    rw [Exchanged, State.tx_of_ne hs hji] at hj
    obtain ⟨t', ht', hgone⟩ := h.of_exchanged hj
    have hhash : some t.tokenHash = some t'.tokenHash := by
      rw [← hknown.presented, ← ht'.presented, hq]
    exact hgone (ht'.sole t ht (Or.inr (Option.some.inj hhash)) ▸ ht)
  -- a row that was there descends from what it descended from before
  have hold : ∀ {root}, ∀ r ∈ s.db.tokens,
      Descends q (s.finish i (s.view i) true) root r.tokenHash → Descends q s root r.tokenHash := by
    intro root r hr hd
    obtain hd | ⟨heq, -⟩ := h.descends_commit hfresh hp hknown hd
    · exact hd
    · exact absurd heq ((h.stocked r hr).ne hfresh hno).2
  have hdel : Deleted p t := by
    obtain ⟨t', rfl | rfl⟩ := hi.of_commit hp
    · obtain rfl := Option.some.inj hpt
      exact ⟨t', rfl, rfl⟩
    · obtain rfl := Option.some.inj hpt
      exact absurd ht hi.row.1
  -- beside a row that is issued no other descends from the same token
  have hnew : ∀ {root} userId, ∀ r ∈ s.db.tokens, ¬ Deleted p r →
      Descends q (s.finish i (s.view i) true) root ((q i).issued userId).tokenHash →
      ¬ Descends q (s.finish i (s.view i) true) root r.tokenHash := by
    intro root userId r hr hnd hd hd'
    obtain hd | ⟨-, hd⟩ := h.descends_commit hfresh hp hknown hd
    · -- the new token is the root, and nothing that was there descends from it
      obtain rfl := hd.root_of_new hfresh hno rfl
      exact ((h.stocked r hr).ne hfresh hno).2 (h.descends_new hfresh hno (hold r hr hd'))
    · obtain rfl := hone.live root r hr t ht (hold r hr hd') hd
      exact hnd hdel
  refine ⟨fun j k hj hk hq => ?_, fun root r hr r' hr' hd hd' => ?_⟩
  · by_cases hji : j = i
    · subst hji
      exact (hfirst k hk hq.symm).symm
    by_cases hki : k = i
    · subst hki
      exact hfirst j hj hq
    rw [Exchanged, State.tx_of_ne hs hji] at hj
    rw [Exchanged, State.tx_of_ne hs hki] at hk
    exact hone.once j k hj hk hq
  · obtain ⟨hm, hnd⟩ | ⟨userId, heq⟩ := hi.mem_change hp hr
    · obtain ⟨hm', hnd'⟩ | ⟨userId', rfl⟩ := hi.mem_change hp hr'
      · exact hone.live root r hm r' hm' (hold r hm hd) (hold r' hm' hd')
      · exact absurd hd (hnew userId' r hm hnd hd')
    · obtain ⟨hm', hnd'⟩ | ⟨userId', heq'⟩ := hi.mem_change hp hr'
      · subst heq
        exact absurd hd' (hnew userId r' hm' hnd' hd)
      · apply TokenTable.eq_of_hash_eq hr hr'
        rw [heq, heq']
        rfl

/-- Only a commit exchanges a token: a request has committed before the step, or does so in it. -/
theorem exchanged_of_step (hs : s.step l = some s') (hj : Exchanged s' j) :
    Exchanged s j ∨ l = .run j ∧ (s.tx j).phase = .running .commit := by
  by_cases hw : j = l.who
  swap
  · rw [Exchanged, State.tx_of_ne hs hw] at hj
    exact Or.inl hj
  subst hw
  obtain ⟨i, rfl, hm⟩ | ⟨i, rfl, -, rfl⟩ := State.step_cases hs
  · cases hm with
    | commit hp => exact Or.inr ⟨rfl, hp⟩
    | read => simp [Exchanged, Label.who] at hj
    | search => simp [Exchanged, Label.who] at hj
    | write => simp [Exchanged, Label.who] at hj
    | rollback => simp [Exchanged, Label.who] at hj
    | lock => simp [Exchanged, Label.who] at hj
    | drop => simp [Exchanged, Label.who] at hj
    | gather => simp [Exchanged, Label.who] at hj
  · simp [Exchanged, Label.who] at hj

/-- **A step** from single-use tokens: they are single-use afterwards exactly if an exchange it
commits finds its token still stored. -/
theorem RequestsAt.singleUse_iff (h : RequestsAt q start s) (hfresh : FreshTokens q start)
    (hone : SingleUse q s) (hs : s.step l = some s') : SingleUse q s' ↔ StillStored q s l := by
  by_cases hcommit : ∃ i, l = .run i ∧ (s.tx i).phase = .running .commit
  swap
  · have hdb : s'.db = s.db := by
      obtain hdb | ⟨i, hl, hp, -⟩ := State.db_step hs
      · exact hdb
      · exact absurd ⟨i, hl, hp⟩ hcommit
    have hex : ∀ j, Exchanged s' j → Exchanged s j := by
      intro j hj
      obtain hj | hj := exchanged_of_step hs hj
      · exact hj
      · exact absurd ⟨j, hj⟩ hcommit
    apply iff_of_true (hone.of_quiet hdb hex)
    cases l with
    | abort i => exact trivial
    | run i => exact fun hp => absurd ⟨i, rfl, hp⟩ hcommit
  obtain ⟨i, rfl, hp⟩ := hcommit
  have hs' := hs
  simp only [State.step, State.runStep, hp] at hs'
  obtain rfl := Option.some.inj hs'
  obtain ⟨p, hi⟩ := h.at_place i
  obtain ⟨t, hpt⟩ : ∃ t, p.token = some t := by
    obtain ⟨t, rfl | rfl⟩ := hi.of_commit hp
    · exact ⟨t, rfl⟩
    · exact ⟨t, rfl⟩
  have hknown := hi.known t hpt
  have hstored : StillStored q s (.run i) ↔ t ∈ s.db.tokens := by
    refine ⟨fun hC => ?_, fun ht _ => ⟨t, ht, hknown.presented⟩⟩
    obtain ⟨r, hr, hq⟩ := hC hp
    have hhash := Option.some.inj (hq.symm.trans hknown.presented)
    exact hknown.sole r hr (Or.inr hhash) ▸ hr
  rw [hstored]
  refine ⟨fun hone' => ?_, h.singleUse_commit hfresh hi hp hknown hpt hone⟩
  -- a token whose row is gone was exchanged by somebody else
  by_contra ht
  have htaken : Taken q s t.tokenHash := by
    obtain ⟨t', rfl | rfl⟩ := hi.of_commit hp
    · obtain rfl := Option.some.inj hpt
      exact absurd hi.row ht
    · obtain rfl := Option.some.inj hpt
      exact hi.row.2
  obtain ⟨j, hj, hq⟩ := htaken
  have hi' : Exchanged (s.finish i (s.view i) true) i := by
    rw [Exchanged, State.finish_tx]
  have hji := hone'.once j i (hj.step hs) hi' (hq.trans hknown.presented.symm)
  exact not_exchanged_of_commit hp (hji ▸ hj)

/-- **Tokens are single-use, exactly when every exchange finds its token still stored**: whatever
the tables are and whatever tokens the requests present, in every state of a run no two requests
have exchanged the same token and no two live tokens descend from the same one, if and only if
every request that commits does so while the row of the token it presents is committed. -/
theorem singleUse_iff_stillStored (q : τ → RefreshRequest) (db : AuthDb)
    (hfresh : FreshTokens q db.tokens) (labels : List (Label τ)) :
    Always State.step (SingleUse q) (refreshes q db) labels ↔
      Along State.step (StillStored q) (refreshes q db) labels := by
  refine always_iff_along (fun s l s' h hs => h.step hfresh hs)
    (fun s l s' h hone hs => h.singleUse_iff hfresh hone hs) (fun s l hs => ?_)
    requestsAt_refreshes singleUse_refreshes
  cases l with
  | abort i => exact trivial
  | run i =>
    intro hp
    simp only [State.step, State.runStep, hp] at hs
    cases hs

end Run

/-- A user with one session, which the two tabs of a browser share. -/
def sampleAuthDb : AuthDb where
  tokens := ⟨[⟨1, 1, "a", 100⟩], List.nodup_singleton _, List.nodup_singleton _⟩
  users := KeyedTable.empty.insertIgnore ⟨1, true, none⟩

/-- Two tabs refresh it: both present the one token, and each would be issued another. -/
def sampleTabs : Bool → RefreshRequest
  | false => ⟨some "a", 2, "b", 50, 50, 50⟩
  | true => ⟨some "a", 3, "c", 50, 50, 50⟩

/-- One tab after the other. -/
theorem singleUse_iff_stillStored_two_tabs :
    Always State.step (SingleUse sampleTabs) (refreshes sampleTabs sampleAuthDb)
        (List.replicate 13 (.run false) ++ List.replicate 2 (.run true)) ↔
      Along State.step (StillStored sampleTabs) (refreshes sampleTabs sampleAuthDb)
        (List.replicate 13 (.run false) ++ List.replicate 2 (.run true)) :=
  singleUse_iff_stillStored sampleTabs sampleAuthDb
    ⟨by decide, by decide, by decide, by decide⟩ _

/-- Two tabs that both look the token up before either deletes it both get a successor. -/
theorem token_exchanged_twice :
    ∃ labels s, exec State.step (refreshes sampleTabs sampleAuthDb) labels = some s ∧
      ¬ SingleUse sampleTabs s ∧ s.db.tokens.rows.length = 2 := by
  have hrun : (exec State.step (refreshes sampleTabs sampleAuthDb)
      (List.replicate 3 (.run true) ++ List.replicate 13 (.run false) ++
        List.replicate 10 (.run true))).map (fun s => decide (Exchanged s false ∧
          Exchanged s true ∧ s.db.tokens.rows.length = 2)) = some true := by
    decide +kernel
  obtain ⟨s, he, h⟩ := Option.map_eq_some_iff.mp hrun
  obtain ⟨hfirst, hsecond, hlive⟩ := of_decide_eq_true h
  refine ⟨_, s, he, fun hone => ?_, hlive⟩
  exact Bool.false_ne_true (hone.once false true hfirst hsecond rfl)

end Grosh
