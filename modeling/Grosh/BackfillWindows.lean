import Grosh.Normalization
import Mathlib.Algebra.Order.Group.Int
import Mathlib.Tactic.Linarith
import Mathlib.Tactic.Ring

/-!
# The windows of a backfill

`run_backfill` asks the bank for the statements of a range in windows of at most 31 days, from
the end backwards, each window ending a second before the one before begins. The loop goes on
while that second is after the start of the range, so a start that is reached exactly is left
out.

The windows are counted from the end: the `k`-th ends `k` times 31 days and a second before the end
of the range. So whether the start is reached exactly is a matter of divisibility, and everything
else about the windows is read off their position in this count. A window that is not answered ends
the loop, and those that were still to come are not asked for.

* `backfill_covers_iff` — the windows are disjoint and short, and they cover the range exactly if
  its length is no multiple of 31 days and a second, and the bank answers up to the last window.
* `backfill_skips_second` — the start of a range of that length is in no window.
-/

namespace Grosh

/-- `_CHUNK_SECONDS`: 31 days. -/
def chunkSeconds : ℤ := 2678400

/-! ## The loop -/

/-- A window of statements, both ends included. -/
structure StatementWindow : Type where
  fromTs : ℤ
  toTs : ℤ

/-- What `get_statements` does. -/
inductive StatementsReply : Type where
  | statements (items : List MonobankStatementItem)
  /-- a `MonobankAPIError` -/
  | apiError (statusCode : ℤ) (message : String)
  /-- any other exception -/
  | raises

/-- What a backfill raises. -/
inductive BackfillError : Type where
  | integrationNotFound
  | accountNotFound
  | monobankApi (statusCode : ℤ)
  /-- an exception of the client, of the producer, or of `datetime.fromtimestamp` -/
  | other

/-- What a backfill reads beside the range. -/
structure BackfillEnv : Type where
  userId : UUID
  /-- `decrypt_token`: `None` for an integration that is unknown or inactive -/
  token : Option String
  /-- the id of `get_account_by_external_id` -/
  accountId : Option UUID
  /-- `get_statements` of a client with the token, for the account -/
  getStatements : String → StatementWindow → StatementsReply
  /-- `producer.produce` accepts the message; its queue may be full -/
  produces : TransactionEnvelope → MonobankStatementItem → Bool

/-- What a backfill has done. -/
structure BackfillRun : Type where
  /-- the windows asked for, in order -/
  requested : List StatementWindow
  /-- the messages produced, in order -/
  produced : List (TransactionEnvelope × MonobankStatementItem)
  /-- `mark_integration_error` -/
  integrationError : Bool
  error : Option BackfillError

/-- Nothing more happens. -/
def BackfillRun.ended (error : Option BackfillError) : BackfillRun := ⟨[], [], false, error⟩

/-- A run that begins with a request and its messages. -/
def BackfillRun.after (window : StatementWindow)
    (sent : List (TransactionEnvelope × MonobankStatementItem)) (rest : BackfillRun) :
    BackfillRun :=
  { rest with requested := window :: rest.requested, produced := sent ++ rest.produced }

/-- `"out of bounds" in e.message`: how the service recognises that the bank has nothing older. -/
def isOutOfBounds (message : String) : Bool :=
  message.toList.tails.any fun rest => "out of bounds".toList.isPrefixOf rest

/-- The `datetime.fromtimestamp` of a window that is logged: a window of another era raises. -/
def StatementWindow.logged (window : StatementWindow) : Bool :=
  (fromTimestamp window.fromTs).isSome && (fromTimestamp window.toTs).isSome

/-- The loop of `run_backfill`, at `current_to`. -/
def backfillLoop (benv : BackfillEnv) (token : String) (envelope : TransactionEnvelope)
    (fromTimestamp currentTo : ℤ) : BackfillRun :=
  if fromTimestamp < currentTo then
    let currentFrom := max fromTimestamp (currentTo - chunkSeconds)
    let window : StatementWindow := ⟨currentFrom, currentTo⟩
    match benv.getStatements token window with
    | .apiError statusCode message =>
      if statusCode = 400 ∧ isOutOfBounds message = true then
        (BackfillRun.ended (if window.logged then none else some .other)).after window []
      else
        { requested := [window]
          produced := []
          -- the token is revoked
          integrationError := decide (statusCode = 401 ∨ statusCode = 403)
          error := some (.monobankApi statusCode) }
    | .raises => (BackfillRun.ended (some .other)).after window []
    | .statements items =>
      if window.logged = false then (BackfillRun.ended (some .other)).after window []
      else
        let sent := (items.takeWhile (benv.produces envelope)).map fun item => (envelope, item)
        if items.all (benv.produces envelope) then
          (backfillLoop benv token envelope fromTimestamp (currentFrom - 1)).after window sent
        else (BackfillRun.ended (some .other)).after window sent
  else .ended none
termination_by (currentTo - fromTimestamp).toNat
decreasing_by
  have hchunk : chunkSeconds = 2678400 := rfl
  omega

/-- `MonobankBackfillProvider.run_backfill`: the token and the account first, and then the loop from
the end of the range down. -/
def runBackfill (benv : BackfillEnv) (fromTimestamp toTimestamp : ℤ) : BackfillRun :=
  match benv.token with
  | none => .ended (some .integrationNotFound)
  | some token =>
    match benv.accountId with
    | none => .ended (some .accountNotFound)
    | some accountId =>
      backfillLoop benv token ⟨benv.userId, accountId⟩ fromTimestamp toTimestamp

/-! ## What the windows cover

A window has both its ends. Two windows with a common second would ask for it twice, so that the
next one ends a second below. -/

/-- The second is in the window, the first and the last among them. -/
def StatementWindow.Contains (window : StatementWindow) (t : ℤ) : Prop :=
  window.fromTs ≤ t ∧ t ≤ window.toTs

/-- The windows are disjoint, span 31 days at most, and cover the range with both its ends. -/
structure CoversRange (windows : List StatementWindow) (fromTs toTs : ℤ) : Prop where
  disjoint : windows.Pairwise fun v w => ∀ t, ¬ (v.Contains t ∧ w.Contains t)
  short : ∀ w ∈ windows, w.toTs - w.fromTs ≤ 31 * 86400
  covered : ∀ t, fromTs ≤ t → t ≤ toTs → ∃ w ∈ windows, w.Contains t

/-- The bank answers with statements, the window can be logged, and the producer accepts the
items: the loop goes on below the window. -/
def BackfillEnv.Answers (benv : BackfillEnv) (token : String) (envelope : TransactionEnvelope)
    (window : StatementWindow) : Prop :=
  ∃ items, benv.getStatements token window = .statements items ∧ window.logged = true ∧
    ∀ item ∈ items, benv.produces envelope item = true

section Loop

variable {benv : BackfillEnv} {token : String} {envelope : TransactionEnvelope}
  {fromTs currentTo : ℤ}

/-- The loop has ended: nothing is left above the start of the range. -/
theorem backfillLoop_of_le (h : currentTo ≤ fromTs) :
    backfillLoop benv token envelope fromTs currentTo = .ended none := by
  rw [backfillLoop, if_neg (not_lt.mpr h)]

/-- **One round** asks for a window, and goes on below it if the bank answers. -/
theorem requested_of_answers (hlt : fromTs < currentTo)
    (h : benv.Answers token envelope ⟨max fromTs (currentTo - chunkSeconds), currentTo⟩) :
    (backfillLoop benv token envelope fromTs currentTo).requested =
      ⟨max fromTs (currentTo - chunkSeconds), currentTo⟩ ::
        (backfillLoop benv token envelope fromTs
          (max fromTs (currentTo - chunkSeconds) - 1)).requested := by
  obtain ⟨items, hreply, hlog, hall⟩ := h
  rw [backfillLoop, if_pos hlt]
  simp only [hreply, hlog]
  rw [if_neg (Ne.symm Bool.false_ne_true), if_pos (List.all_eq_true.mpr hall)]
  rfl

theorem requested_of_not_answers (hlt : fromTs < currentTo)
    (h : ¬ benv.Answers token envelope ⟨max fromTs (currentTo - chunkSeconds), currentTo⟩) :
    (backfillLoop benv token envelope fromTs currentTo).requested =
      [⟨max fromTs (currentTo - chunkSeconds), currentTo⟩] := by
  rw [backfillLoop, if_pos hlt]
  rcases hreply : benv.getStatements token ⟨max fromTs (currentTo - chunkSeconds), currentTo⟩
    with items | ⟨statusCode, message⟩ | _
  · simp only [hreply]
    split
    · rfl
    · next hlog =>
      have hall : ¬ items.all (benv.produces envelope) = true := fun hall =>
        h ⟨items, hreply, (Bool.not_eq_false _).mp hlog, List.all_eq_true.mp hall⟩
      rw [if_neg hall]
      rfl
  · simp only [hreply]
    split <;> rfl
  · simp only [hreply]
    rfl

/-- The windows the loop asks for, from the present second on, one constructor for each way a round
may go. -/
inductive Requests (benv : BackfillEnv) (token : String) (envelope : TransactionEnvelope)
    (fromTs : ℤ) : ℤ → List StatementWindow → Prop where
  | ended {currentTo : ℤ} (le : currentTo ≤ fromTs) :
      Requests benv token envelope fromTs currentTo []
  | stopped {currentTo : ℤ} (lt : fromTs < currentTo)
      (fails : ¬ benv.Answers token envelope ⟨max fromTs (currentTo - chunkSeconds), currentTo⟩) :
      Requests benv token envelope fromTs currentTo
        [⟨max fromTs (currentTo - chunkSeconds), currentTo⟩]
  | answered {currentTo : ℤ} {windows : List StatementWindow} (lt : fromTs < currentTo)
      (answers : benv.Answers token envelope ⟨max fromTs (currentTo - chunkSeconds), currentTo⟩)
      (rest : Requests benv token envelope fromTs (max fromTs (currentTo - chunkSeconds) - 1)
        windows) :
      Requests benv token envelope fromTs currentTo
        (⟨max fromTs (currentTo - chunkSeconds), currentTo⟩ :: windows)

/-- **The loop asks for these windows.** The induction is on the distance to the start. -/
theorem requests_backfillLoop : Requests benv token envelope fromTs currentTo
    (backfillLoop benv token envelope fromTs currentTo).requested := by
  have hchunk : chunkSeconds = 2678400 := rfl
  induction hdist : (currentTo - fromTs).toNat using Nat.strong_induction_on
    generalizing currentTo with
  | _ dist ih =>
    by_cases hlt : fromTs < currentTo
    swap
    · rw [backfillLoop_of_le (not_lt.mp hlt)]
      exact .ended (not_lt.mp hlt)
    by_cases h : benv.Answers token envelope ⟨max fromTs (currentTo - chunkSeconds), currentTo⟩
    · rw [requested_of_answers hlt h]
      exact .answered hlt h (ih _ (by omega) rfl)
    · rw [requested_of_not_answers hlt h]
      exact .stopped hlt h

variable {windows : List StatementWindow}

/-- Every window begins within the range, ends at the present second or before, and spans 31
days at most. -/
theorem Requests.bounds (h : Requests benv token envelope fromTs currentTo windows)
    {w : StatementWindow} (hw : w ∈ windows) :
    fromTs ≤ w.fromTs ∧ w.toTs ≤ currentTo ∧ w.toTs - w.fromTs ≤ 31 * 86400 := by
  have hchunk : chunkSeconds = 2678400 := rfl
  induction h with
  | ended => cases hw
  | stopped lt =>
    obtain rfl := List.mem_singleton.mp hw
    dsimp only
    omega
  | answered lt _ _ ih =>
    rcases List.mem_cons.mp hw with rfl | hw
    · dsimp only
      omega
    · have := ih hw
      omega

/-- **The windows are disjoint**: what follows a window lies below it. -/
theorem Requests.disjoint (h : Requests benv token envelope fromTs currentTo windows) :
    windows.Pairwise fun v w => ∀ t, ¬ (v.Contains t ∧ w.Contains t) := by
  induction h with
  | ended => exact List.Pairwise.nil
  | stopped => exact List.pairwise_singleton _ _
  | answered lt _ rest ih =>
    refine List.pairwise_cons.mpr ⟨fun w hw t => ?_, ih⟩
    obtain ⟨-, hbelow, -⟩ := rest.bounds hw
    rintro ⟨⟨hfrom, -⟩, ⟨-, hto⟩⟩
    dsimp only at hfrom
    omega

theorem Requests.eq_nil_of_le (h : Requests benv token envelope fromTs currentTo windows)
    (hle : currentTo ≤ fromTs) : windows = [] := by
  cases h with
  | ended => rfl
  | stopped lt => exact absurd lt (not_lt.mpr hle)
  | answered lt => exact absurd lt (not_lt.mpr hle)

/-- The `k`-th window of 31 days before a second, as the loop asks for it. -/
def windowBefore (currentTo : ℤ) (k : ℕ) : StatementWindow :=
  ⟨currentTo - k * 2678401 - 2678400, currentTo - k * 2678401⟩

theorem windowBefore_zero (currentTo : ℤ) :
    windowBefore currentTo 0 = ⟨currentTo - 2678400, currentTo⟩ := by
  rw [windowBefore, Nat.cast_zero, zero_mul, sub_zero]

theorem windowBefore_succ (currentTo : ℤ) (k : ℕ) :
    windowBefore currentTo (k + 1) = windowBefore (currentTo - 2678401) k := by
  have hstart : currentTo - ((k + 1 : ℕ) : ℤ) * 2678401 = currentTo - 2678401 - k * 2678401 := by
    push_cast
    ring
  rw [windowBefore, windowBefore, hstart]

/-- The bank answers from a second on up to the last window of the range, and the windows do not
end a second short of its start. -/
def BackfillEnv.Reaches (benv : BackfillEnv) (token : String) (envelope : TransactionEnvelope)
    (fromTs currentTo : ℤ) : Prop :=
  ¬ (2678401 ∣ currentTo - fromTs) ∧ ∀ k : ℕ, (k + 1) * 2678401 < currentTo - fromTs →
    benv.Answers token envelope (windowBefore currentTo k)

/-- A range of 31 days is reached at once, by its one window. -/
theorem reaches_of_short (hlt : fromTs < currentTo) (hshort : currentTo - fromTs ≤ 2678400) :
    benv.Reaches token envelope fromTs currentTo := by
  refine ⟨fun hdvd => ?_, fun k hk => ?_⟩
  · have := Int.le_of_dvd (by omega) hdvd
    omega
  · have : (0 : ℤ) ≤ k := Int.natCast_nonneg k
    omega

/-- A longer range is reached if the first window is answered and the rest is reached: the step of
the induction. -/
theorem reaches_iff_of_long (hlong : 2678400 < currentTo - fromTs) :
    benv.Reaches token envelope fromTs currentTo ↔ fromTs < currentTo - 2678401 ∧
      benv.Answers token envelope ⟨currentTo - 2678400, currentTo⟩ ∧
      benv.Reaches token envelope fromTs (currentTo - 2678401) := by
  constructor
  · rintro ⟨hdvd, hanswers⟩
    have hrest : fromTs < currentTo - 2678401 := by
      have : currentTo - fromTs ≠ 2678401 := fun h => hdvd (h ▸ dvd_rfl)
      omega
    refine ⟨hrest, ?_, by omega, fun k hk => ?_⟩
    · rw [← windowBefore_zero]
      exact hanswers 0 (by push_cast; omega)
    · rw [← windowBefore_succ]
      exact hanswers (k + 1) (by push_cast; linarith)
  · rintro ⟨hrest, hfirst, hdvd, hanswers⟩
    refine ⟨by omega, fun k hk => ?_⟩
    rcases k with _ | k
    · rw [windowBefore_zero]
      exact hfirst
    · rw [windowBefore_succ]
      exact hanswers k (by push_cast at hk; linarith)

/-- A first window that begins at the start of the range covers it, whatever follows. -/
theorem covers_of_short (hshort : currentTo - fromTs ≤ 2678400) {t : ℤ} (hfrom : fromTs ≤ t)
    (hto : t ≤ currentTo) :
    ∃ w ∈ ⟨max fromTs (currentTo - chunkSeconds), currentTo⟩ :: windows, w.Contains t := by
  have hchunk : chunkSeconds = 2678400 := rfl
  refine ⟨_, List.mem_cons_self, ?_, hto⟩
  dsimp only
  omega

/-- After a first window of 31 days the windows below it cover what it leaves, if that is not a
single second. -/
theorem covers_cons_iff (hlong : 2678400 < currentTo - fromTs)
    (hnil : currentTo - 2678401 ≤ fromTs → windows = []) :
    (∀ t, fromTs ≤ t → t ≤ currentTo →
        ∃ w ∈ ⟨currentTo - 2678400, currentTo⟩ :: windows, w.Contains t) ↔
      fromTs < currentTo - 2678401 ∧
        ∀ t, fromTs ≤ t → t ≤ currentTo - 2678401 → ∃ w ∈ windows, w.Contains t := by
  constructor
  · intro hcovers
    -- the start of the range is in one of the windows that follow
    have hbelow : ∀ t, fromTs ≤ t → t ≤ currentTo - 2678401 → ∃ w ∈ windows, w.Contains t := by
      intro t hfrom hto
      obtain ⟨w, hw, hcontains⟩ := hcovers t hfrom (by omega)
      rcases List.mem_cons.mp hw with rfl | hw
      · have := hcontains.1
        dsimp only at this
        omega
      · exact ⟨w, hw, hcontains⟩
    refine ⟨?_, hbelow⟩
    by_contra hle
    obtain ⟨w, hw, -⟩ := hbelow fromTs le_rfl (by omega)
    rw [hnil (not_lt.mp hle)] at hw
    cases hw
  · rintro ⟨-, hbelow⟩ t hfrom hto
    by_cases hsplit : t ≤ currentTo - 2678401
    · obtain ⟨w, hw, hcontains⟩ := hbelow t hfrom hsplit
      exact ⟨w, List.mem_cons_of_mem _ hw, hcontains⟩
    · refine ⟨_, List.mem_cons_self, ?_, hto⟩
      dsimp only
      omega

/-- **What the windows cover**: the range, if they are answered down to it. The induction is on
the requests. -/
theorem Requests.covers_iff (h : Requests benv token envelope fromTs currentTo windows)
    (hlt : fromTs < currentTo) :
    (∀ t, fromTs ≤ t → t ≤ currentTo → ∃ w ∈ windows, w.Contains t) ↔
      benv.Reaches token envelope fromTs currentTo := by
  have hchunk : chunkSeconds = 2678400 := rfl
  induction h with
  | ended le => exact absurd hlt (not_lt.mpr le)
  | @stopped currentTo lt fails =>
    by_cases hspan : currentTo - fromTs ≤ 2678400
    · exact iff_of_true (fun t => covers_of_short hspan) (reaches_of_short hlt hspan)
    -- the first window begins after the start of the range, and there is no other
    have hmax : max fromTs (currentTo - chunkSeconds) = currentTo - 2678400 := by omega
    rw [hmax] at fails ⊢
    refine iff_of_false (fun hcovers => ?_) fun hreaches => ?_
    · obtain ⟨w, hw, hcontains, -⟩ := hcovers fromTs le_rfl hlt.le
      obtain rfl := List.mem_singleton.mp hw
      dsimp only at hcontains
      omega
    · exact fails ((reaches_iff_of_long (not_le.mp hspan)).mp hreaches).2.1
  | @answered currentTo windows lt answers rest ih =>
    by_cases hspan : currentTo - fromTs ≤ 2678400
    · exact iff_of_true (fun t => covers_of_short hspan) (reaches_of_short hlt hspan)
    have hmax : max fromTs (currentTo - chunkSeconds) = currentTo - 2678400 := by omega
    have hnext : currentTo - 2678400 - 1 = currentTo - 2678401 := by omega
    rw [hmax] at answers rest ih ⊢
    rw [hnext] at rest ih
    rw [reaches_iff_of_long (not_le.mp hspan), and_iff_right answers,
      covers_cons_iff (not_le.mp hspan) rest.eq_nil_of_le]
    exact and_congr_right ih

end Loop

/-! ## A backfill

The condition is exact: the bank has to answer down to the last window, and the length of the range
must not be one that leaves a single second. -/

/-- **What a backfill covers.** For a range of any length: the windows are disjoint, span 31 days
at most, and cover the range with both its ends, if and only if the integration and the account
are found, the length of the range is no multiple of 31 days and a second, and every window
before the last is answered. -/
theorem backfill_covers_iff (benv : BackfillEnv) {fromTs toTs : ℤ} (hlt : fromTs < toTs) :
    CoversRange (runBackfill benv fromTs toTs).requested fromTs toTs ↔
      ∃ token accountId, benv.token = some token ∧ benv.accountId = some accountId ∧
        ¬ (2678401 ∣ toTs - fromTs) ∧ ∀ k : ℕ, (k + 1) * 2678401 < toTs - fromTs →
          benv.Answers token ⟨benv.userId, accountId⟩
            ⟨toTs - k * 2678401 - 2678400, toTs - k * 2678401⟩ := by
  have hnothing : ∀ {run : BackfillRun}, run.requested = [] →
      ¬ CoversRange run.requested fromTs toTs := by
    intro run hrun hcovers
    obtain ⟨w, hw, -⟩ := hcovers.covered fromTs le_rfl hlt.le
    rw [hrun] at hw
    cases hw
  rcases htoken : benv.token with _ | token
  · simp only [runBackfill, htoken]
    apply iff_of_false (hnothing rfl)
    rintro ⟨_, _, h, -⟩
    cases h
  rcases haccount : benv.accountId with _ | accountId
  · simp only [runBackfill, htoken, haccount]
    apply iff_of_false (hnothing rfl)
    rintro ⟨_, _, -, h, -⟩
    cases h
  simp only [runBackfill, htoken, haccount]
  have hrequests : Requests benv token ⟨benv.userId, accountId⟩ fromTs toTs
      (backfillLoop benv token ⟨benv.userId, accountId⟩ fromTs toTs).requested :=
    requests_backfillLoop
  have hcovers := hrequests.covers_iff hlt
  constructor
  · intro h
    exact ⟨token, accountId, rfl, rfl, hcovers.mp h.covered⟩
  · rintro ⟨token', accountId', htoken', haccount', hreaches⟩
    obtain rfl := Option.some.inj htoken'
    obtain rfl := Option.some.inj haccount'
    exact ⟨hrequests.disjoint, fun w hw => (hrequests.bounds hw).2.2, hcovers.mpr hreaches⟩

/-! ### A bank without statements -/

/-- An account without statements, at a bank that answers every request. -/
def sampleBackfill : BackfillEnv where
  userId := 1
  token := some "token"
  accountId := some 10
  getStatements := fun _ _ => .statements []
  produces := fun _ _ => true

/-- Ten seconds are covered. -/
theorem backfill_covers_iff_ten : CoversRange (runBackfill sampleBackfill 0 10).requested 0 10 :=
  (backfill_covers_iff sampleBackfill (by decide)).mpr
    ⟨"token", 10, rfl, rfl, by decide, fun k hk => by omega⟩

/-- Of 31 days and a second, the first second is in no window: the only window begins after it,
and the next would end at it. -/
theorem backfill_skips_second :
    (fromTimestamp 0).isSome ∧ (fromTimestamp 2678401).isSome ∧
    (runBackfill sampleBackfill 0 2678401).requested = [⟨1, 2678401⟩] ∧
    ¬ CoversRange (runBackfill sampleBackfill 0 2678401).requested 0 2678401 := by
  have hrequested : (runBackfill sampleBackfill 0 2678401).requested = [⟨1, 2678401⟩] := by
    have hround : (backfillLoop sampleBackfill "token" ⟨1, 10⟩ 0 2678401).requested =
        ⟨1, 2678401⟩ :: (backfillLoop sampleBackfill "token" ⟨1, 10⟩ 0 0).requested :=
      requested_of_answers (by decide) ⟨[], rfl, by decide, fun _ h => absurd h List.not_mem_nil⟩
    rw [backfillLoop_of_le le_rfl] at hround
    exact hround
  refine ⟨by decide, by decide, hrequested, fun h => ?_⟩
  rw [hrequested] at h
  obtain ⟨w, hw, hcontains, -⟩ := h.covered 0 le_rfl (by decide)
  rw [List.mem_singleton.mp hw] at hcontains
  exact absurd hcontains (by decide)

end Grosh
