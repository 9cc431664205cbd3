import Grosh.Lib.DecimalFloat
import Grosh.Lib.GroupBy
import Grosh.Pagination

/-!
# Aggregates

`GET /transactions/aggregates` adds up the converted income and expense of a user by day, week,
month, quarter or year of the user's timezone. Its query is written apart from the one of the
list: it has conditions of its own, and groups the rows by a time that the database truncates.

* `aggregates_agree` — over the buckets of an answer, income and expense add up to what the list
  shows for the range with the direction, without special categories; so neither bucket nor
  timezone matters, and adjacent ranges add up.
* `getAggregates_eq_ok_iff` — what an answer is; `exists_aggregates` — there is one where the
  timezone is known and the times in it are `datetime`s.
-/

namespace Grosh

open DecimalFloat GroupBy Isoformat PartialMap

/-! ## Buckets

`date_trunc` on a time without a zone, computed on day numbers: the bucket of a day is known by its
first day. -/

/-- `Bucket`: the periods a request may ask for. A week starts on its Monday. -/
inductive Bucket : Type where
  | day
  | week
  | month
  | quarter
  | year
  deriving DecidableEq, Repr

/-- The number of the first day of the bucket a numbered day is in. -/
def Bucket.firstDay (bucket : Bucket) (day : ℤ) : ℤ :=
  -- after 146097 days, which are whole weeks, the calendar repeats
  let era := (day - 1) / 146097
  let n := ((day - 1) % 146097).toNat + 1
  let date := ord2ymd n
  era * 146097 +
    match bucket with
    | .day => n
    | .week => n - (n - 1) % 7
    | .month => ymd2ord date.1 date.2.1 1
    | .quarter => ymd2ord date.1 ((date.2.1 - 1) / 3 * 3 + 1) 1
    | .year => ymd2ord date.1 1 1

/-- `date_trunc`, of a time without a timezone: midnight of the first day of the bucket. -/
def dateTrunc (bucket : Bucket) (wall : Timestamp) : Timestamp :=
  (bucket.firstDay (wall / dayMicros + epochOrd) - epochOrd) * dayMicros

/-- The first day of a bucket is on or before each of its days, and after the beginning of year 1
if they are. -/
theorem Bucket.firstDay_bounds (bucket : Bucket) {day : ℤ} (h : 1 ≤ day) :
    1 ≤ bucket.firstDay day ∧ bucket.firstDay day ≤ day := by
  have hera : 0 ≤ (day - 1) / 146097 := by omega
  generalize hn : ((day - 1) % 146097).toNat + 1 = n
  have hday : day = (day - 1) / 146097 * 146097 + n := by omega
  have hpos : 1 ≤ n := by omega
  obtain ⟨hdate, hord⟩ := ymd2ord_ord2ymd hpos
  have hbefore : ∀ month ≤ (ord2ymd n).2.1, 1 ≤ ymd2ord (ord2ymd n).1 month 1 ∧
      ymd2ord (ord2ymd n).1 month 1 ≤ n := by
    intro month hmonth
    have hmono : ∀ leap : Bool, ∀ m ≤ 12, ∀ m' ≤ m,
        daysBeforeMonth leap m' ≤ daysBeforeMonth leap m := by
      decide
    have := hmono (isLeap (ord2ymd n).1) _ hdate.month_le month hmonth
    have := hdate.day_pos
    simp only [ymd2ord] at hord ⊢
    omega
  have hmonth := hdate.month_pos
  simp only [Bucket.firstDay, hn]
  cases bucket with
  | day => simp only; omega
  | week => simp only; omega
  | month =>
    obtain ⟨hlow, hhigh⟩ := hbefore _ le_rfl
    simp only
    omega
  | quarter =>
    obtain ⟨hlow, hhigh⟩ := hbefore (((ord2ymd n).2.1 - 1) / 3 * 3 + 1) (by omega)
    simp only
    omega
  | year =>
    obtain ⟨hlow, hhigh⟩ := hbefore 1 hmonth
    simp only
    omega

theorem inRange_dateTrunc (bucket : Bucket) {wall : ℤ} (h : InRange wall) :
    InRange (dateTrunc bucket wall) := by
  obtain ⟨hlow, hhigh⟩ := h
  have hday : 1 ≤ wall / dayMicros + epochOrd := by
    simp only [dayMicros, epochOrd]
    omega
  obtain ⟨hfirst, hle⟩ := bucket.firstDay_bounds hday
  simp only [InRange, dateTrunc, dayMicros, epochOrd] at hfirst hle ⊢
  omega

/-! ## The query

The rows are read in UTC, moved into the zone of the user, and grouped by the start of their bucket
there. The service and the database each have a table of zones of their own. -/

/-- What `ZoneInfo(key)` gives: a zone, one of the two exceptions the handler expects, or another
one. -/
inductive ZoneLookup : Type where
  /-- the offset from UTC at a time of the zone -/
  | found (utcoffset : Timestamp → ℤ)
  /-- a `ZoneInfoNotFoundError` or a `ValueError` -/
  | notFound
  /-- any other exception -/
  | raises

/-- The timezones, as the service and the database know them. Nothing says that the two agree. -/
structure TimeZones : Type where
  zoneInfo : String → ZoneLookup
  /-- `AT TIME ZONE`; `none` where the database raises -/
  atTimeZone : String → Timestamp → Option Timestamp

/-- What a request for aggregates raises. Only the first has an answer of its own. -/
inductive AggregatesError : Type where
  | invalidUserTimezone (userTz : String)
  /-- an exception of the database, of its driver or of `datetime` -/
  | other

/-- The document an error is answered with; `repr` is that of a string. -/
def AggregatesError.problem (repr : String → String) : AggregatesError → ProblemDetail
  | .invalidUserTimezone userTz =>
    ⟨422, "INVALID_DATE_RANGE", "Invalid user timezone in DB: " ++ repr userTz⟩
  | .other => ⟨500, "INTERNAL_ERROR", "An unexpected error occurred"⟩

/-- `Currency`, of the aggregates: the display currencies, each with its column of converted
amounts. -/
inductive AggregateCurrency : Type where
  | UAH
  | USD
  | EUR
  deriving DecidableEq, Repr

/-- The column with the amount converted into the currency; a row that could not be converted has
none. -/
def AggregateCurrency.converted : AggregateCurrency → Transaction → Option ℤ
  | .UAH, r => r.amountUahCents
  | .USD, r => r.amountUsdCents
  | .EUR, r => r.amountEurCents

/-- The columns of an `AggregateRow` that belong to one currency: the sums, their difference, and
the share of the rows that have been converted. -/
structure CurrencyTotals : Type where
  incomeCents : ℤ
  expenseCents : ℤ
  deltaCents : ℤ
  convertedPct : ℚ

/-- The aware `datetime` of a time in a zone: what the clock there shows, and how far it is from
UTC. -/
structure ZonedTime : Type where
  wall : Timestamp
  utcoffset : ℤ

/-- `AggregateRow`: a bucket with the totals of the three currencies. -/
structure AggregateRow : Type where
  periodStart : ZonedTime
  uah : CurrencyTotals
  usd : CurrencyTotals
  eur : CurrencyTotals

/-- `getattr(row, …)`: the totals of a currency. -/
def AggregateRow.totals (row : AggregateRow) : AggregateCurrency → CurrencyTotals
  | .UAH => row.uah
  | .USD => row.usd
  | .EUR => row.eur

/-- `time >= COALESCE(…, '-infinity')`: without a lower bound every time is late enough. -/
def meetsFrom : Option Timestamp → Timestamp → Bool
  | none, _ => true
  | some fromDt, time => decide (fromDt ≤ time)

/-- `time < COALESCE(…, 'infinity')`: without an upper bound every time is early enough. -/
def meetsTo : Option Timestamp → Timestamp → Bool
  | none, _ => true
  | some toDt, time => decide (time < toDt)

/-- The `WHERE` of `get_aggregates`: the user's incomes and expenses of the range that have no
special category. -/
def aggregateConditions (userId : UUID) (fromDt toDt : Option Timestamp) (r : Transaction) : Bool :=
  decide (r.userId = userId) && decide (r.direction = .income ∨ r.direction = .expense) &&
    r.specialCategory.isNone && meetsFrom fromDt r.time && meetsTo toDt r.time

/-- The rows `get_aggregates` reads, before they are grouped. -/
def aggregatedRows (table : KeyedTable Transaction.id) (userId : UUID)
    (fromDt toDt : Option Timestamp) : List Transaction :=
  table.rows.filter (aggregateConditions userId fromDt toDt)

/-- What is selected of a group for a currency. A row without a converted amount adds nothing to the
sums and lowers the share. -/
def currencyTotals (rows : List Transaction) (cur : AggregateCurrency) : CurrencyTotals :=
  let income := sumWhere (fun r => decide (r.direction = .income)) cur.converted rows
  let expense := sumWhere (fun r => decide (r.direction = .expense)) cur.converted rows
  let converted := rows.countP fun r => (cur.converted r).isSome
  { incomeCents := income
    expenseCents := expense
    deltaCents := income - expense
    -- the quotient is rounded as such, not its first sixteen digits
    convertedPct := roundHalfUp (100 * converted / rows.length * 10) / 10 }

/-- A row of the answer, of a group of rows with their times truncated. The offset is that of the
zone at the start of the bucket. -/
def aggregateRow (utcoffset : Timestamp → ℤ)
    (group : Timestamp × List (Timestamp × Transaction)) : AggregateRow :=
  let totals := currencyTotals (group.2.map Prod.snd)
  { periodStart := ⟨group.1, utcoffset group.1⟩
    uah := totals .UAH
    usd := totals .USD
    eur := totals .EUR }

/-- `date_trunc($2, time AT TIME ZONE $3)`: the bucket of a row, as the database sees it. -/
def TimeZones.periodStart (zones : TimeZones) (bucket : Bucket) (userTz : String)
    (r : Transaction) : Option Timestamp :=
  (zones.atTimeZone userTz r.time).map (dateTrunc bucket)

/-- `TransactionRepo.get_aggregates`: the groups in the order of their start. One row whose time the
database cannot move into the zone fails the whole query. -/
def getAggregates (zones : TimeZones) (table : KeyedTable Transaction.id) (userId : UUID)
    (fromDt toDt : Option Timestamp) (bucket : Bucket) (userTz : String) :
    Except AggregatesError (List AggregateRow) :=
  match zones.zoneInfo userTz with
  | .notFound => .error (.invalidUserTimezone userTz)
  | .raises => .error .other
  | .found utcoffset =>
    match withKeys (zones.periodStart bucket userTz) (aggregatedRows table userId fromDt toDt) with
    | none => .error .other
    | some keyed =>
      let groups := groupBy Prod.fst keyed
      -- the driver decodes the times of the years 1 to 9999
      if groups.all fun g => decide (InRange g.1) then .ok (groups.map (aggregateRow utcoffset))
      else .error .other

/-! ## The endpoint

The parameters choose the currencies and the fields that are shown. They do not change what is added
up. -/

/-- `AggregateField`: the sums a request may ask for. -/
inductive AggregateField : Type where
  | income
  | expense
  | delta
  deriving DecidableEq, Repr

/-- The parameters of a request, with the defaults they have where they are left out. -/
structure AggregatesRequest : Type where
  currency : List AggregateCurrency := [.UAH, .USD, .EUR]
  fromTime : Option Timestamp := none
  toTime : Option Timestamp := none
  bucket : Bucket := .month
  fields : List AggregateField := [.income, .expense, .delta]

/-- `CurrencyAggregate`: a field that is not asked for is `null`. -/
structure CurrencyAggregate : Type where
  totalIncomeCents : Option ℤ
  totalExpenseCents : Option ℤ
  deltaCents : Option ℤ
  convertedPct : ℚ

/-- `AggregateItem`: one bucket, with the currencies asked for. -/
structure AggregateItem : Type where
  periodStart : Timestamp
  /-- a dictionary, in the order of its keys -/
  currencies : List (AggregateCurrency × CurrencyAggregate)

/-- `AggregatesResponse`: the buckets that have rows, in order. A bucket without any is left out. -/
structure AggregatesResponse : Type where
  bucket : Bucket
  items : List AggregateItem

/-- The fields asked for; the share of the converted rows is always there. -/
def currencyAggregate (fields : List AggregateField) (totals : CurrencyTotals) :
    CurrencyAggregate where
  totalIncomeCents := if .income ∈ fields then some totals.incomeCents else none
  totalExpenseCents := if .expense ∈ fields then some totals.expenseCents else none
  deltaCents := if .delta ∈ fields then some totals.deltaCents else none
  convertedPct := totals.convertedPct

/-- The item made of a row; `none` where its start in UTC is no `datetime`. A currency that is asked
for twice is there once. -/
def aggregateItem (req : AggregatesRequest) (row : AggregateRow) : Option AggregateItem :=
  let periodStartUtc := row.periodStart.wall - row.periodStart.utcoffset
  if InRange periodStartUtc then
    some ⟨periodStartUtc,
      req.currency.eraseDups.map fun cur => (cur, currencyAggregate req.fields (row.totals cur))⟩
  else none

/-- `get_aggregates`, for a user with the timezone of the settings, if there are any, and UTC
otherwise. -/
def aggregates (zones : TimeZones) (table : KeyedTable Transaction.id) (userId : UUID)
    (timezone : Option String) (req : AggregatesRequest) :
    Except AggregatesError AggregatesResponse :=
  match getAggregates zones table userId req.fromTime req.toTime req.bucket
      (timezone.getD "UTC") with
  | .error e => .error e
  | .ok rows =>
    match rows.mapM (aggregateItem req) with
    | none => .error .other
    | some items => .ok ⟨req.bucket, items⟩

/-- A field of a currency, added up over the buckets; `none` where an item does not have it. -/
def AggregatesResponse.total (response : AggregatesResponse) (cur : AggregateCurrency)
    (field : CurrencyAggregate → Option ℤ) : Option ℤ :=
  (response.items.mapM fun item : AggregateItem =>
    (item.currencies.lookup cur).bind field).map List.sum

/-! ## Sums over an answer

Grouping loses no row and counts none twice, so that what the groups add up to is what all rows
do. -/

section Answer

variable {zones : TimeZones} {table : KeyedTable Transaction.id} {userId : UUID}
  {fromDt toDt : Option Timestamp} {bucket : Bucket} {userTz : String} {rows : List AggregateRow}

/-- An answer has the groups of the rows by the times truncated, all of them `datetime`s. It is
there exactly if no row fails. -/
theorem getAggregates_eq_ok_iff :
    getAggregates zones table userId fromDt toDt bucket userTz = .ok rows ↔
      ∃ utcoffset keyed, zones.zoneInfo userTz = .found utcoffset ∧
        withKeys (zones.periodStart bucket userTz) (aggregatedRows table userId fromDt toDt) =
          some keyed ∧
        (∀ g ∈ groupBy Prod.fst keyed, InRange g.1) ∧
        rows = (groupBy Prod.fst keyed).map (aggregateRow utcoffset) := by
  rw [getAggregates]
  rcases hzone : zones.zoneInfo userTz with utcoffset | _ | _
  · rcases hkeyed : withKeys (zones.periodStart bucket userTz)
      (aggregatedRows table userId fromDt toDt) with _ | keyed
    · simp
    · have hall : ((groupBy Prod.fst keyed).all fun g => decide (InRange g.1)) = true ↔
          ∀ g ∈ groupBy Prod.fst keyed, InRange g.1 := by
        simp
      by_cases hrange : ∀ g ∈ groupBy Prod.fst keyed, InRange g.1
      · simp only [hall.mpr hrange, if_true, Except.ok.injEq]
        constructor
        · rintro rfl
          exact ⟨utcoffset, keyed, rfl, rfl, hrange, rfl⟩
        · rintro ⟨utcoffset', keyed', hzone', hkeyed', -, rfl⟩
          obtain rfl : utcoffset = utcoffset' := ZoneLookup.found.inj hzone'
          obtain rfl : keyed = keyed' := Option.some.inj hkeyed'
          rfl
      · simp only [if_neg (mt hall.mp hrange)]
        refine iff_of_false (fun h => by cases h) ?_
        rintro ⟨_, keyed', -, hkeyed', hrange', -⟩
        obtain rfl : keyed = keyed' := Option.some.inj hkeyed'
        exact hrange hrange'
  · exact iff_of_false (fun h => by cases h) fun ⟨_, _, h, _⟩ => by cases h
  · exact iff_of_false (fun h => by cases h) fun ⟨_, _, h, _⟩ => by cases h

/-- The groups of an answer add up to the rows read, for every column that is a sum over some of the
rows. -/
theorem sum_totals (h : getAggregates zones table userId fromDt toDt bucket userTz = .ok rows)
    (cur : AggregateCurrency) {cents : CurrencyTotals → ℤ} {p : Transaction → Bool}
    (hcents : ∀ group, cents (currencyTotals group cur) = sumWhere p cur.converted group) :
    (rows.map fun row => cents (row.totals cur)).sum =
      sumWhere p cur.converted (aggregatedRows table userId fromDt toDt) := by
  obtain ⟨utcoffset, keyed, -, hkeyed, -, rfl⟩ := getAggregates_eq_ok_iff.mp h
  have htotals : ∀ group, (aggregateRow utcoffset group).totals cur =
      currencyTotals (group.2.map Prod.snd) cur := fun group => by
    cases cur <;> rfl
  rw [List.map_map, ← sum_groupBy_withKeys hkeyed]
  simp only [Function.comp_def, htotals, hcents]

/-- What the buckets of an answer add up to: income and expense, in one currency. -/
def answerTotals (rows : List AggregateRow) (cur : AggregateCurrency) : ℤ × ℤ :=
  ((rows.map fun row => (row.totals cur).incomeCents).sum,
    (rows.map fun row => (row.totals cur).expenseCents).sum)

end Answer

/-! ## The two queries

The list has conditions of its own. With every special category excluded, and one direction asked
for, they come to those of the aggregates. -/

section Queries

variable {userId : UUID} {ex : List SpecialCategory} {fromTime toTime : Option Timestamp}

theorem meetsFrom_eq (time : Timestamp) :
    meetsFrom fromTime time = fromTime.all fun t => decide (t ≤ time) := by
  cases fromTime <;> rfl

theorem meetsTo_eq (time : Timestamp) :
    meetsTo toTime time = toTime.all fun t => decide (time < t) := by
  cases toTime <;> rfl

/-- With every category excluded, only the rows without one are left, which is how the list is
brought to what the aggregates count. -/
theorem outsideCategories_every (hex : ∀ c, c ∈ ex) (special : Option SpecialCategory) :
    outsideCategories (some ex) special = special.isNone := by
  rcases ex with _ | ⟨c₀, cs⟩
  · exact absurd (hex .transfer) List.not_mem_nil
  · cases special with
    | none => rfl
    | some c => exact decide_eq_false (not_not_intro (hex c))

/-- The filters of the list that stand for the income, or the expense, of a range. -/
def sideFilters (ex : List SpecialCategory) (fromTime toTime : Option Timestamp)
    (direction : TransactionDirection) : TransactionFilters :=
  ⟨some direction, none, some ex, none, fromTime, toTime⟩

/-- The rows the aggregates count on a side are those the list selects with the filters of that
side. -/
theorem aggregateConditions_side (hex : ∀ c, c ∈ ex) {direction : TransactionDirection}
    (hside : direction = .income ∨ direction = .expense) (r : Transaction) :
    (decide (r.direction = direction) && aggregateConditions userId fromTime toTime r) =
      buildTransactionConditions userId (sideFilters ex fromTime toTime direction) r := by
  simp only [aggregateConditions, buildTransactionConditions, sideFilters, meetsFrom_eq, meetsTo_eq,
    outsideCategories_every hex, inCategories, Option.all_some, Option.all_none]
  by_cases hdirection : r.direction = direction
  · have hsides : r.direction = .income ∨ r.direction = .expense := hdirection ▸ hside
    simp only [decide_eq_true hdirection, decide_eq_true hsides, Bool.true_and, Bool.and_true]
    ac_rfl
  · simp only [decide_eq_false hdirection, Bool.false_and, Bool.and_false]

/-- What one side of a range adds up to in the list, for a currency: the sum of the converted
amounts there are. -/
def listTotal (table : KeyedTable Transaction.id) (userId : UUID) (ex : List SpecialCategory)
    (fromTime toTime : Option Timestamp) (direction : TransactionDirection)
    (cur : AggregateCurrency) : ℤ :=
  ((matchingTransactions table userId (sideFilters ex fromTime toTime direction)).filterMap
    cur.converted).sum

/-- Both sides: income and expense, as the list shows them. -/
def listTotals (table : KeyedTable Transaction.id) (userId : UUID) (ex : List SpecialCategory)
    (fromTime toTime : Option Timestamp) (cur : AggregateCurrency) : ℤ × ℤ :=
  (listTotal table userId ex fromTime toTime .income cur,
    listTotal table userId ex fromTime toTime .expense cur)

theorem listTotal_eq (table : KeyedTable Transaction.id) (direction : TransactionDirection)
    (cur : AggregateCurrency) :
    listTotal table userId ex fromTime toTime direction cur =
      sumWhere (buildTransactionConditions userId (sideFilters ex fromTime toTime direction))
        cur.converted table.rows :=
  (sumWhere_eq_sum _ _ _).symm

/-- The sums of an answer are those of the list, for whichever buckets and zone. -/
theorem answerTotals_eq (hex : ∀ c, c ∈ ex) {zones : TimeZones}
    {table : KeyedTable Transaction.id} {bucket : Bucket} {userTz : String}
    {rows : List AggregateRow}
    (h : getAggregates zones table userId fromTime toTime bucket userTz = .ok rows)
    (cur : AggregateCurrency) :
    answerTotals rows cur = listTotals table userId ex fromTime toTime cur := by
  have hside : ∀ direction, direction = .income ∨ direction = .expense →
      sumWhere (fun r => decide (r.direction = direction)) cur.converted
          (aggregatedRows table userId fromTime toTime) =
        listTotal table userId ex fromTime toTime direction cur := by
    intro direction hdirection
    rw [listTotal_eq, aggregatedRows, sumWhere_filter]
    exact sumWhere_congr _ fun r _ => aggregateConditions_side hex hdirection r
  refine Prod.ext ?_ ?_
  · exact (sum_totals h cur fun _ => rfl).trans (hside .income (.inl rfl))
  · exact (sum_totals h cur fun _ => rfl).trans (hside .expense (.inr rfl))

/-- A row of a range is before a moment between its ends, or from there on, and never both. -/
theorem buildTransactionConditions_split {mid : Timestamp} (hfrom : ∀ f ∈ fromTime, f ≤ mid)
    (hto : ∀ t ∈ toTime, mid ≤ t) (direction : TransactionDirection) (r : Transaction) :
    (buildTransactionConditions userId (sideFilters ex fromTime (some mid) direction) r ||
        buildTransactionConditions userId (sideFilters ex (some mid) toTime direction) r) =
      buildTransactionConditions userId (sideFilters ex fromTime toTime direction) r := by
  rw [Bool.eq_iff_iff]
  simp only [buildTransactionConditions, sideFilters, Bool.or_eq_true, Bool.and_eq_true,
    Option.all_eq_true, decide_eq_true_eq, Option.some.injEq, forall_eq']
  constructor
  · rintro (⟨⟨⟨⟨hrow, hf⟩, ht⟩, hin⟩, hout⟩ | ⟨⟨⟨⟨hrow, hf⟩, ht⟩, hin⟩, hout⟩)
    · exact ⟨⟨⟨⟨hrow, hf⟩, fun t h => lt_of_lt_of_le ht (hto t h)⟩, hin⟩, hout⟩
    · exact ⟨⟨⟨⟨hrow, fun f h => (hfrom f h).trans hf⟩, ht⟩, hin⟩, hout⟩
  · rintro ⟨⟨⟨⟨hrow, hf⟩, ht⟩, hin⟩, hout⟩
    rcases lt_or_ge r.time mid with hlt | hge
    · exact .inl ⟨⟨⟨⟨hrow, hf⟩, hlt⟩, hin⟩, hout⟩
    · exact .inr ⟨⟨⟨⟨hrow, hge⟩, ht⟩, hin⟩, hout⟩

/-- The totals of adjacent ranges add up: what ends one starts the other. -/
theorem listTotals_add (table : KeyedTable Transaction.id) {mid : Timestamp}
    (hfrom : ∀ f ∈ fromTime, f ≤ mid) (hto : ∀ t ∈ toTime, mid ≤ t) (cur : AggregateCurrency) :
    listTotals table userId ex fromTime (some mid) cur +
        listTotals table userId ex (some mid) toTime cur =
      listTotals table userId ex fromTime toTime cur := by
  have hside : ∀ direction, listTotal table userId ex fromTime (some mid) direction cur +
      listTotal table userId ex (some mid) toTime direction cur =
        listTotal table userId ex fromTime toTime direction cur := by
    intro direction
    rw [listTotal_eq, listTotal_eq, listTotal_eq, sumWhere_add]
    · exact sumWhere_congr _ fun r _ => buildTransactionConditions_split hfrom hto direction r
    · intro r hr
      simp only [buildTransactionConditions, sideFilters, Bool.and_eq_true, Option.all_some,
        decide_eq_true_eq] at hr
      have hlt : ¬ mid ≤ r.time := not_le_of_gt hr.1.1.2
      simp only [buildTransactionConditions, sideFilters, Option.all_some, decide_eq_false hlt,
        Bool.and_false, Bool.false_and]
  exact Prod.ext (hside .income) (hside .expense)

end Queries

/-! ## The answers of the endpoint

From the rows of the query to the response: the fields asked for are there, in every item and for
every currency asked for. -/

section Endpoint

variable {zones : TimeZones} {table : KeyedTable Transaction.id} {userId : UUID}
  {timezone : Option String} {req : AggregatesRequest} {response : AggregatesResponse}

/-- An item has the fields asked for, for each currency asked for, under its key. -/
theorem lookup_currencies {row : AggregateRow} {item : AggregateItem}
    (h : aggregateItem req row = some item) {cur : AggregateCurrency} (hcur : cur ∈ req.currency) :
    item.currencies.lookup cur = some (currencyAggregate req.fields (row.totals cur)) := by
  rw [aggregateItem] at h
  split at h
  · obtain rfl := Option.some.inj h
    have hlookup : ∀ curs : List AggregateCurrency, cur ∈ curs →
        (curs.map fun c => (c, currencyAggregate req.fields (row.totals c))).lookup cur =
          some (currencyAggregate req.fields (row.totals cur)) := by
      intro curs hmem
      induction curs with
      | nil => exact absurd hmem List.not_mem_nil
      | cons c curs ih =>
        rw [List.map_cons, List.lookup_cons]
        by_cases hc : cur = c
        · rw [hc, beq_self_eq_true]
        · rw [beq_eq_false_iff_ne.mpr hc]
          exact ih ((List.mem_cons.mp hmem).resolve_left hc)
    exact hlookup _ (List.mem_eraseDups.mpr hcur)
  · cases h

/-- A field asked for adds up, over the items, to what the rows they are made of add up to. -/
theorem total_of_items {rows : List AggregateRow} {items : List AggregateItem}
    (h : rows.mapM (aggregateItem req) = some items) {cur : AggregateCurrency}
    (hcur : cur ∈ req.currency) {field : CurrencyAggregate → Option ℤ}
    {cents : CurrencyTotals → ℤ}
    (hfield : ∀ totals, field (currencyAggregate req.fields totals) = some (cents totals)) :
    AggregatesResponse.total ⟨req.bucket, items⟩ cur field =
      some (rows.map fun row => cents (row.totals cur)).sum := by
  have hmap : (items.map fun item => (item.currencies.lookup cur).bind field) =
      (rows.map fun row => cents (row.totals cur)).map some := by
    rw [List.map_map]
    refine map_eq_of_mapM_eq_some (fun row item hitem => ?_) h
    rw [lookup_currencies hitem hcur, Option.bind_some, hfield]
    rfl
  rw [AggregatesResponse.total, mapM_eq_some_iff.mpr hmap, Option.map_some]

/-- A response adds up to what the answer of the query it is made of adds up to, in every field that
was asked for. -/
theorem total_eq (h : aggregates zones table userId timezone req = .ok response) :
    ∃ rows, getAggregates zones table userId req.fromTime req.toTime req.bucket
        (timezone.getD "UTC") = .ok rows ∧
      ∀ cur ∈ req.currency,
        (.income ∈ req.fields →
          response.total cur CurrencyAggregate.totalIncomeCents = some (answerTotals rows cur).1) ∧
        (.expense ∈ req.fields →
          response.total cur CurrencyAggregate.totalExpenseCents =
            some (answerTotals rows cur).2) := by
  rw [aggregates] at h
  rcases hrows : getAggregates zones table userId req.fromTime req.toTime req.bucket
    (timezone.getD "UTC") with e | rows
  · rw [hrows] at h
    cases h
  · rw [hrows] at h
    rcases hitems : rows.mapM (aggregateItem req) with _ | items
    · simp only [hitems] at h
      cases h
    · simp only [hitems] at h
      obtain rfl := Except.ok.inj h
      refine ⟨rows, rfl, fun cur hcur => ⟨fun hfield => ?_, fun hfield => ?_⟩⟩
      · exact total_of_items hitems hcur fun _ => if_pos hfield
      · exact total_of_items hitems hcur fun _ => if_pos hfield

/-- There is a response where the zone is known, and the times of the rows in it are `datetime`s
whose buckets begin at a `datetime` in UTC. -/
theorem exists_aggregates {utcoffset : Timestamp → ℤ}
    (hzone : zones.zoneInfo (timezone.getD "UTC") = .found utcoffset)
    (hrows : ∀ r ∈ aggregatedRows table userId req.fromTime req.toTime, ∃ wall,
      zones.atTimeZone (timezone.getD "UTC") r.time = some wall ∧ InRange wall ∧
        InRange (dateTrunc req.bucket wall - utcoffset (dateTrunc req.bucket wall))) :
    ∃ response, aggregates zones table userId timezone req = .ok response := by
  have hstart : ∀ r ∈ aggregatedRows table userId req.fromTime req.toTime, ∃ start,
      zones.periodStart req.bucket (timezone.getD "UTC") r = some start ∧ InRange start ∧
        InRange (start - utcoffset start) := by
    intro r hr
    obtain ⟨wall, hwall, hrange, hutc⟩ := hrows r hr
    refine ⟨dateTrunc req.bucket wall, ?_, inRange_dateTrunc req.bucket hrange, hutc⟩
    rw [TimeZones.periodStart, hwall]
    rfl
  obtain ⟨keyed, hkeyed⟩ := exists_withKeys fun r hr => (hstart r hr).imp fun _ h => h.1
  have hgroups : ∀ g ∈ groupBy Prod.fst keyed, InRange g.1 ∧ InRange (g.1 - utcoffset g.1) := by
    intro g hg
    obtain ⟨kr, hkr, hkey⟩ := exists_of_mem_groupBy hg
    obtain ⟨r, hr, hk⟩ := key_of_mem_withKeys hkeyed hkr
    obtain ⟨start, hperiod, hrange⟩ := hstart r hr
    obtain rfl : start = kr.1 := Option.some.inj (hperiod.symm.trans hk)
    rwa [← hkey]
  have hanswer := getAggregates_eq_ok_iff.mpr
    ⟨utcoffset, keyed, hzone, hkeyed, fun g hg => (hgroups g hg).1, rfl⟩
  obtain ⟨items, hitems⟩ : ∃ items, ((groupBy Prod.fst keyed).map
      (aggregateRow utcoffset)).mapM (aggregateItem req) = some items := by
    apply exists_mapM
    intro row hrow
    obtain ⟨g, hg, rfl⟩ := List.mem_map.mp hrow
    exact ⟨_, if_pos (hgroups g hg).2⟩
  exact ⟨⟨req.bucket, items⟩, by simp only [aggregates, hanswer, hitems]⟩

end Endpoint

/-! ## The aggregates agree with the list -/

/-- **Aggregates agree with the list.** Over the buckets of an answer, income and expense add up
to what the list shows of the range; so do the fields of a response. -/
theorem aggregates_agree (zones : TimeZones) (table : KeyedTable Transaction.id) (userId : UUID)
    {ex : List SpecialCategory} (hex : ∀ c, c ∈ ex) :
    (∀ {fromDt toDt : Option Timestamp} {bucket : Bucket} {userTz : String}
        {rows : List AggregateRow},
      getAggregates zones table userId fromDt toDt bucket userTz = .ok rows →
        ∀ cur, answerTotals rows cur = listTotals table userId ex fromDt toDt cur) ∧
    (∀ {timezone : Option String} {req : AggregatesRequest} {response : AggregatesResponse},
      aggregates zones table userId timezone req = .ok response → ∀ cur ∈ req.currency,
        (.income ∈ req.fields → response.total cur CurrencyAggregate.totalIncomeCents =
          some (listTotals table userId ex req.fromTime req.toTime cur).1) ∧
        (.expense ∈ req.fields → response.total cur CurrencyAggregate.totalExpenseCents =
          some (listTotals table userId ex req.fromTime req.toTime cur).2)) ∧
    (∀ {fromDt toDt : Option Timestamp} {bucket bucket' : Bucket} {userTz userTz' : String}
        {rows rows' : List AggregateRow},
      getAggregates zones table userId fromDt toDt bucket userTz = .ok rows →
      getAggregates zones table userId fromDt toDt bucket' userTz' = .ok rows' →
        ∀ cur, answerTotals rows cur = answerTotals rows' cur) ∧
    ∀ {fromDt toDt : Option Timestamp} {mid : Timestamp} {bucket₁ bucket₂ bucket : Bucket}
        {userTz₁ userTz₂ userTz : String} {rows₁ rows₂ rows : List AggregateRow},
      (∀ f ∈ fromDt, f ≤ mid) → (∀ t ∈ toDt, mid ≤ t) →
      getAggregates zones table userId fromDt (some mid) bucket₁ userTz₁ = .ok rows₁ →
      getAggregates zones table userId (some mid) toDt bucket₂ userTz₂ = .ok rows₂ →
      getAggregates zones table userId fromDt toDt bucket userTz = .ok rows →
        ∀ cur, answerTotals rows₁ cur + answerTotals rows₂ cur = answerTotals rows cur := by
  refine ⟨fun h => answerTotals_eq hex h, fun h cur hcur => ?_, fun h h' cur => ?_,
    fun hfrom hto h₁ h₂ h cur => ?_⟩
  · obtain ⟨rows, hrows, htotal⟩ := total_eq h
    rw [← answerTotals_eq hex hrows]
    exact htotal cur hcur
  · rw [answerTotals_eq hex h, answerTotals_eq hex h']
  · rw [answerTotals_eq hex h₁, answerTotals_eq hex h₂, answerTotals_eq hex h,
      listTotals_add table hfrom hto]

/-- The service and the database know UTC only, and every other zone is refused by both. -/
def sampleZones : TimeZones where
  zoneInfo userTz := if userTz = "UTC" then .found fun _ => 0 else .notFound
  atTimeZone userTz t := if userTz = "UTC" then some t else none

/-- An income, an expense on the next day, and a transfer, which is counted on neither side. -/
def sampleAggregated : KeyedTable Transaction.id where
  rows :=
    [toRow (sampleLeg 1 10 "a" .income) .monobank "UAH" none (fun _ => some 300) none none,
      toRow { sampleLeg 2 11 "b" .expense with time := 86400 * second } .monobank "UAH" none
        (fun _ => some 100) none none,
      toRow (sampleLeg 3 12 "c" .expense) .monobank "UAH" (some .transfer) (fun _ => some 500) none
        none]
  nodup := by decide

/-- Two days make one month. -/
theorem aggregates_agree_sampleAggregated :
    ∃ days month, getAggregates sampleZones sampleAggregated 1 none none .day "UTC" = .ok days ∧
      getAggregates sampleZones sampleAggregated 1 none none .month "UTC" = .ok month ∧
      days.length = 2 ∧ month.length = 1 ∧
      answerTotals days .UAH = answerTotals month .UAH ∧
      answerTotals days .UAH = (300, 100) := by
  have hevery : ∀ c, c ∈ [SpecialCategory.transfer] := fun c => by
    cases c
    exact List.mem_cons_self
  obtain ⟨hlist, -, hsame, -⟩ := aggregates_agree sampleZones sampleAggregated 1 hevery
  obtain ⟨days, hdays, htwo⟩ : ∃ days, getAggregates sampleZones sampleAggregated 1 none none
      .day "UTC" = .ok days ∧ days.length = 2 := ⟨_, rfl, rfl⟩
  obtain ⟨month, hmonth, hone⟩ : ∃ month, getAggregates sampleZones sampleAggregated 1 none none
      .month "UTC" = .ok month ∧ month.length = 1 := ⟨_, rfl, rfl⟩
  refine ⟨days, month, hdays, hmonth, htwo, hone, hsame hdays hmonth .UAH, ?_⟩
  rw [hlist hdays .UAH]
  rfl

end Grosh
