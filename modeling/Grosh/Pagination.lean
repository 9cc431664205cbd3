import Grosh.Cursor
import Grosh.FreshRate
import Grosh.Lib.Keyset
import Grosh.Lib.PartialMap
import Grosh.PairLinks
import Mathlib.Data.List.Dedup
import Mathlib.Data.Prod.Lex

/-!
# The paginated lists

`GET /transactions` and `GET /rates` list the rows that meet the filters, newest first, a page
at a time. A page asks the database for one row more than it shows, and where that row comes,
gives the time and the id of the last row shown as the cursor of the next page.

* `Listing.exactlyVisits` — over rows the service can read, following the cursors visits every
  matching row once, in strictly decreasing order of time and id, in pages that are full but for
  the last.
* `pagination_exact` — so do both lists, for all filters and limits, and a cursor is read back
  as what it was made from; `rates_unreadable` — a rate that is not a number ends the list with
  an error.
* `readable_consume` — what enrichment stores, the service can read.
-/

namespace Grosh

open Isoformat Keyset PartialMap

/-! ## A page

A page is a function of the rows that meet the filters, the limit and the cursor. The two list
handlers share it, each with its own columns. -/

/-- `CursorPage`: the items, how many rows there are in all, the limit, and the cursor of the next
page if there is one. -/
structure CursorPage (δ : Type) : Type where
  items : List δ
  total : ℕ
  limit : ℕ
  nextCursor : Option String

/-- What a list request raises, before or after it has read any rows. -/
inductive ListError : Type where
  /-- the cursor is no cursor -/
  | invalidCursor
  /-- values given both as `category` and as `exclude_category` -/
  | categoryConflict (values : List String)
  /-- a row that the driver or the response model does not accept -/
  | unreadableRow
  deriving DecidableEq

/-- The status, the code and the detail of a problem document, as the client sees them. -/
structure ProblemDetail : Type where
  status : ℕ
  code : String
  detail : String
  deriving DecidableEq

/-- The document an error is answered with. A row that cannot be shown is an unexpected error. -/
def ListError.problem : ListError → ProblemDetail
  | .invalidCursor => ⟨400, "INVALID_CURSOR", "Invalid cursor."⟩
  | .categoryConflict values =>
    ⟨422, "VALIDATION_ERROR", "category and exclude_category cannot contain the same values: [" ++
      String.intercalate ", " (values.map fun v => "'" ++ v ++ "'") ++ "]"⟩
  | .unreadableRow => ⟨500, "INTERNAL_ERROR", "An unexpected error occurred"⟩

/-- What the two list handlers differ in: the columns the list is ordered by, whether the driver
can decode a row, and the response made of it. -/
structure Listing (ρ δ : Type) : Type where
  time : ρ → Timestamp
  id : ρ → UUID
  /-- ids have 128 bits, and the times are `datetime`s -/
  decodes : ρ → Bool
  /-- `none` where the response model rejects the row -/
  respond : ρ → Option δ
  idBits : ∀ {r}, decodes r = true → id r < 2 ^ 128
  inRange : ∀ {r}, decodes r = true → InRange (time r)

namespace Listing

variable {ρ δ : Type}

/-- `(time, id)`: what the list is ordered by, and the cursor stands for. -/
def key (l : Listing ρ δ) (r : ρ) : Timestamp ×ₗ UUID := toLex (l.time r, l.id r)

/-- The cursor of a row: its time and its id, encoded. -/
def cursor (l : Listing ρ δ) (r : ρ) : String := encodeCursor (l.time r) (uuidText (l.id r))

/-- The page a handler answers with, of the rows that meet its filters. It reads one row more than
it shows, to know whether there is a next page. -/
def page (l : Listing ρ δ) (matching : List ρ) (limit : ℕ)
    (cursorKey : Option (Timestamp × UUID)) : Except ListError (CursorPage δ) :=
  let total := matching.length
  let rows := fetch l.key matching (cursorKey.map toLex) (limit + 1)
  let hasMore := decide (limit < rows.length)
  let shown := if hasMore then rows.take limit else rows
  if rows.all l.decodes = false then .error .unreadableRow
  else
    match shown.mapM l.respond with
    | none => .error .unreadableRow
    | some items =>
      .ok ⟨items, total, limit, if hasMore then shown.getLast?.map l.cursor else none⟩

/-- The service can read and show the row: the driver decodes it and the response model takes it. -/
def Readable (l : Listing ρ δ) (r : ρ) : Prop := l.decodes r = true ∧ (l.respond r).isSome = true

/-- The pages show every matching row once, in strictly decreasing order; all but the last are
full, and each reports how many rows match. -/
structure Visits (l : Listing ρ δ) (matching : List ρ) (limit : ℕ) (pages : List (CursorPage δ)) :
    Prop where
  shown : ∃ rows : List ρ, rows.Perm matching ∧ (rows.Pairwise fun a b => l.key b < l.key a) ∧
    rows.mapM l.respond = some (pages.flatMap CursorPage.items)
  full : ∀ p ∈ pages.dropLast, p.items.length = limit
  total : ∀ p ∈ pages, p.total = matching.length

/-- Starting without a cursor, following the next cursors ends, in one way, and visits the
matching rows. -/
def ExactlyVisits (l : Listing ρ δ) (matching : List ρ) (limit : ℕ)
    (serve : Option String → Except ListError (CursorPage δ)) : Prop :=
  ∃ pages, Walk serve CursorPage.nextCursor none pages ∧
    (∀ pages', Walk serve CursorPage.nextCursor none pages' → pages' = pages) ∧
    l.Visits matching limit pages

end Listing

/-- The cursor parameter as a handler reads it: none, one that stands for a row, or one that is
refused. -/
def readCursorParam : Option String → Except ListError (Option (Timestamp × UUID))
  | none => .ok none
  | some cursor =>
    match readCursor cursor with
    | none => .error .invalidCursor
    | some cursorKey => .ok (some cursorKey)

/-! ## Transactions

The filters of the query, one condition each, and what the response model makes of a row. -/

/-- The text of a category, in the table and in the answers. -/
def SpecialCategory.toText : SpecialCategory → String
  | .transfer => "transfer"

/-- The filters of `GET /transactions`. Each may be left out. -/
structure TransactionFilters : Type where
  direction : Option TransactionDirection
  category : Option (List SpecialCategory)
  excludeCategory : Option (List SpecialCategory)
  accountId : Option UUID
  fromTime : Option Timestamp
  toTime : Option Timestamp

/-- `special_category = ANY(…)`, for a list that is given and not empty; `NULL` is in none. -/
def inCategories : Option (List SpecialCategory) → Option SpecialCategory → Bool
  | none, _ | some [], _ => true
  | some category, special => special.any fun c => decide (c ∈ category)

/-- `special_category IS NULL OR special_category != ALL(…)`, for a list that is given and not
empty. -/
def outsideCategories : Option (List SpecialCategory) → Option SpecialCategory → Bool
  | none, _ | some [], _ => true
  | some excludeCategory, special => special.all fun c => decide (c ∉ excludeCategory)

/-- `_build_transaction_conditions`: the rows of the user, and of these the ones every filter lets
through. -/
def buildTransactionConditions (userId : UUID) (f : TransactionFilters) (r : Transaction) : Bool :=
  decide (r.userId = userId) && f.direction.all (fun d => decide (r.direction = d)) &&
    f.accountId.all (fun a => decide (r.accountId = a)) &&
    f.fromTime.all (fun t => decide (t ≤ r.time)) && f.toTime.all (fun t => decide (r.time < t)) &&
    inCategories f.category r.specialCategory &&
    outsideCategories f.excludeCategory r.specialCategory

/-- The values given both as `category` and as `exclude_category`, for which the request is
refused. -/
def TransactionFilters.conflict (f : TransactionFilters) : List SpecialCategory :=
  ((f.category.getD []).filter fun c => decide (c ∈ f.excludeCategory.getD [])).dedup

/-- `TransactionResponse`: the columns of a row that the client sees. -/
structure TransactionResponse : Type where
  id : UUID
  accountId : UUID
  time : Timestamp
  amountCents : ℤ
  operationAmountCents : Option ℤ
  currencyCode : String
  operationCurrencyCode : Option String
  amountUahCents : Option ℤ
  amountUsdCents : Option ℤ
  amountEurCents : Option ℤ
  description : Option String
  mcc : Option String
  cashbackAmountCents : ℤ
  balanceCents : Option ℤ
  hold : Option Bool
  direction : TransactionDirection
  specialCategory : Option SpecialCategory
  counterpartyIban : Option String
  rateSource : Option String
  metadata : Option Dict
  source : TransactionSource
  origin : TransactionOrigin
  relatedTransactionId : Option UUID

/-- `metadata`, as `json.loads` gives it, is a dictionary or `None`; anything else is refused by the
model. -/
def readMetadata : Option Json → Option (Option Dict)
  | none | some .null => some none
  | some (.obj d) => some (some d)
  | some _ => none

/-- The response made of a row; `none` is a `ValidationError`. -/
def TransactionResponse.ofRow (r : Transaction) : Option TransactionResponse := do
  let cashbackAmountCents ← r.cashbackAmountCents
  let metadata ← readMetadata r.metadata
  return {
    id := r.id
    accountId := r.accountId
    time := r.time
    amountCents := r.amountCents
    operationAmountCents := r.operationAmountCents
    currencyCode := r.currencyCode
    operationCurrencyCode := r.operationCurrencyCode
    amountUahCents := r.amountUahCents
    amountUsdCents := r.amountUsdCents
    amountEurCents := r.amountEurCents
    description := r.description
    mcc := r.mcc
    cashbackAmountCents := cashbackAmountCents
    balanceCents := r.balanceCents
    hold := r.hold
    direction := r.direction
    specialCategory := r.specialCategory
    counterpartyIban := r.counterpartyIban
    rateSource := r.rateSource
    metadata := metadata
    source := r.source
    origin := r.origin
    relatedTransactionId := r.relatedTransactionId }

/-- The list of transactions, by `(time, id)`: what the driver decodes are ids of 128 bits and times
that are a `datetime`. -/
def transactionListing : Listing Transaction TransactionResponse where
  time := Transaction.time
  id := Transaction.id
  decodes r := decide (r.id < 2 ^ 128) && decide (InRange r.time)
  respond := TransactionResponse.ofRow
  idBits h := of_decide_eq_true (Bool.and_eq_true_iff.mp h).1
  inRange h := of_decide_eq_true (Bool.and_eq_true_iff.mp h).2

/-- The rows of a user that meet the filters, in no order. -/
def matchingTransactions (table : KeyedTable Transaction.id) (userId : UUID)
    (f : TransactionFilters) : List Transaction :=
  table.rows.filter (buildTransactionConditions userId f)

/-- `list_transactions`: the cursor is read first, then the filters are checked, and only then the
rows are asked for. -/
def listTransactions (table : KeyedTable Transaction.id) (userId : UUID) (f : TransactionFilters)
    (limit : ℕ) (cursor : Option String) : Except ListError (CursorPage TransactionResponse) := do
  let cursorKey ← readCursorParam cursor
  if f.conflict ≠ [] then
    .error (.categoryConflict
      ((f.conflict.map SpecialCategory.toText).insertionSort fun a b => a ≤ b))
  else transactionListing.page (matchingTransactions table userId f) limit cursorKey

/-! ## Rates

The same pages over the rows of the rates, which have times that may be missing. -/

/-- The filters of `GET /rates`. Each may be left out. -/
structure RateFilters : Type where
  source : Option String
  currencyFrom : Option String
  currencyTo : Option String
  fromTime : Option Timestamp
  toTime : Option Timestamp

/-- `_rate_filters`: a row is in a range by the start of its validity. -/
def rateFilters (f : RateFilters) (r : CurrencyRateRow) : Bool :=
  f.source.all (fun s => decide (r.pair.source = s)) &&
    f.currencyFrom.all (fun c => decide (r.pair.currencyFrom = c)) &&
    f.currencyTo.all (fun c => decide (r.pair.currencyTo = c)) &&
    f.fromTime.all (fun t => decide (t ≤ r.validFrom)) &&
    f.toTime.all (fun t => decide (r.validFrom < t))

/-- `RateResponse`: the columns of a row that the client sees. -/
structure RateResponse : Type where
  id : UUID
  source : String
  currencyFrom : String
  currencyTo : String
  rates : RateValues
  validFrom : Timestamp
  validTo : Option Timestamp
  lastPolledAt : Option Timestamp
  updateCadenceSeconds : Option ℤ

/-- The response made of a row; `none` is a `ValidationError`: a `Decimal` field takes finite
numbers only. -/
def RateResponse.ofRow (r : CurrencyRateRow) : Option RateResponse := do
  let rates ← r.rates.read
  return {
    id := r.id
    source := r.pair.source
    currencyFrom := r.pair.currencyFrom
    currencyTo := r.pair.currencyTo
    rates := rates
    validFrom := r.validFrom
    validTo := r.validTo
    lastPolledAt := r.lastPolledAt
    updateCadenceSeconds := r.updateCadenceSeconds }

/-- The list of rates, by `(valid_from, id)`: the other times have to be decoded as well, where
there are any. -/
def rateListing : Listing CurrencyRateRow RateResponse where
  time := CurrencyRateRow.validFrom
  id := CurrencyRateRow.id
  decodes r := decide (r.id < 2 ^ 128) && decide (InRange r.validFrom) &&
    [r.validTo, r.lastPolledAt].all (fun t => t.all fun t => decide (InRange t))
  respond := RateResponse.ofRow
  idBits h := of_decide_eq_true (Bool.and_eq_true_iff.mp (Bool.and_eq_true_iff.mp h).1).1
  inRange h := of_decide_eq_true (Bool.and_eq_true_iff.mp (Bool.and_eq_true_iff.mp h).1).2

/-- The rows that meet the filters, in no order. -/
def matchingRates (table : RateTable) (f : RateFilters) : List CurrencyRateRow :=
  table.rows.filter (rateFilters f)

/-- `list_rates`: the cursor is read, and the page cut. -/
def listRates (table : RateTable) (f : RateFilters) (limit : ℕ) (cursor : Option String) :
    Except ListError (CursorPage RateResponse) := do
  let cursorKey ← readCursorParam cursor
  rateListing.page (matchingRates table f) limit cursorKey

/-! ## Pages cut one list

The proof follows the walk along one sorted list: the rows visited are a prefix of it, and the next
request continues right behind. -/

section Cut

variable {ρ δ : Type} {l : Listing ρ δ} {matching visited rest : List ρ} {limit : ℕ}

/-- Rows that can be shown have responses, all of them together. -/
theorem Listing.exists_items {rows : List ρ} (h : ∀ r ∈ rows, l.Readable r) :
    ∃ items, rows.mapM l.respond = some items :=
  exists_mapM fun r hr => Option.isSome_iff_exists.mp (h r hr).2

/-- The keys are distinct as the ids are, so that the order is strict. -/
theorem Listing.nodup_key (h : (matching.map l.id).Nodup) : (matching.map l.key).Nodup := by
  have hid : matching.map l.id = (matching.map l.key).map fun k => (ofLex k).2 := by
    simp [Listing.key]
  rw [hid] at h
  exact h.of_map _

/-- The place in the list after the rows visited, before the rest. It is the invariant of the
walk. -/
structure Listing.At (l : Listing ρ δ) (matching visited rest : List ρ) : Prop where
  nodup : (matching.map l.id).Nodup
  readable : ∀ r ∈ matching, l.Readable r
  split : descending l.key matching = visited ++ rest

namespace Listing.At

/-- What a request fetches whose cursor stands for the rows visited: the first rows of the rest. -/
theorem fetch_eq (h : l.At matching visited rest) (n : ℕ) :
    fetch l.key matching ((visited.getLast?.map fun r => (l.time r, l.id r)).map toLex) n =
      rest.take n := by
  rw [Option.map_map]
  exact fetch_of_append (l.nodup_key h.nodup) h.split n

theorem readable_of_mem (h : l.At matching visited rest) {r : ρ} (hr : r ∈ visited ++ rest) :
    l.Readable r := by
  rw [← h.split] at hr
  exact h.readable r ((descending_perm matching).mem_iff.mp hr)

/-- The rows fetched can be decoded, as all that match can. -/
theorem decodes_take (h : l.At matching visited rest) (n : ℕ) :
    (rest.take n).all l.decodes = true :=
  List.all_eq_true.mpr fun _ hr =>
    (h.readable_of_mem (List.mem_append_right visited (List.mem_of_mem_take hr))).1

/-- The page before the end is full and gives the cursor of its last row. -/
theorem page_more (h : l.At matching visited rest) (hlt : limit < rest.length) :
    ∃ p, l.page matching limit (visited.getLast?.map fun r => (l.time r, l.id r)) = .ok p ∧
      p.items.map some = (rest.take limit).map l.respond ∧
      p.nextCursor = (rest.take limit).getLast?.map l.cursor := by
  have hmore : limit < (rest.take (limit + 1)).length := by
    rw [List.length_take]
    omega
  obtain ⟨items, hitems⟩ : ∃ items, (rest.take limit).mapM l.respond = some items :=
    l.exists_items fun r hr =>
      h.readable_of_mem (List.mem_append_right visited (List.mem_of_mem_take hr))
  have htake : (rest.take (limit + 1)).take limit = rest.take limit := by
    rw [List.take_take, Nat.min_eq_left (Nat.le_succ limit)]
  refine ⟨⟨items, matching.length, limit, (rest.take limit).getLast?.map l.cursor⟩, ?_,
    (mapM_eq_some_iff.mp hitems).symm, rfl⟩
  simp only [Listing.page, h.fetch_eq, h.decodes_take, decide_eq_true hmore, if_true, htake, hitems]
  rfl

/-- The last page shows the rest and gives no cursor. -/
theorem page_last (h : l.At matching visited rest) (hle : rest.length ≤ limit) :
    ∃ p, l.page matching limit (visited.getLast?.map fun r => (l.time r, l.id r)) = .ok p ∧
      p.items.map some = rest.map l.respond ∧ p.nextCursor = none := by
  obtain ⟨items, hitems⟩ : ∃ items, rest.mapM l.respond = some items :=
    l.exists_items fun r hr => h.readable_of_mem (List.mem_append_right visited hr)
  have htake : rest.take (limit + 1) = rest := List.take_of_length_le (by omega)
  have hdecodes := h.decodes_take (limit + 1)
  rw [htake] at hdecodes
  refine ⟨⟨items, matching.length, limit, none⟩, ?_, (mapM_eq_some_iff.mp hitems).symm, rfl⟩
  simp only [Listing.page, h.fetch_eq, htake, hdecodes, decide_eq_false (not_lt.mpr hle),
    Bool.false_eq_true, if_false, hitems]
  rfl

/-- The cursor of the last row visited is read back as its time and id: the round trip of the
cursor, used. -/
theorem readCursorParam_eq (h : l.At matching visited rest) :
    readCursorParam (cursorAfter l.cursor visited) =
      .ok (visited.getLast?.map fun r => (l.time r, l.id r)) := by
  rw [cursorAfter]
  rcases hlast : visited.getLast? with _ | r
  · rfl
  · have hr := (h.readable_of_mem (List.mem_append_left rest (List.mem_of_getLast? hlast))).1
    simp [readCursorParam, Listing.cursor, readCursor_encodeCursor (l.inRange hr) (l.idBits hr)]

end Listing.At

/-- Every page reports how many rows match, wherever its cursor stands. -/
theorem Listing.page_total {cursorKey : Option (Timestamp × UUID)} {p : CursorPage δ}
    (h : l.page matching limit cursorKey = .ok p) : p.total = matching.length := by
  simp only [Listing.page] at h
  split at h
  · cases h
  · split at h
    · cases h
    · rw [← Except.ok.inj h]

/-- Over rows the service can read, a handler that answers with the pages of the matching rows
visits each of them once, in strictly decreasing order. -/
theorem Listing.exactlyVisits {serve : Option String → Except ListError (CursorPage δ)}
    (hserve : ∀ cursor, serve cursor = (readCursorParam cursor).bind (l.page matching limit))
    (hnodup : (matching.map l.id).Nodup) (hread : ∀ r ∈ matching, l.Readable r)
    (hlimit : 1 ≤ limit) : l.ExactlyVisits matching limit serve := by
  have hat : ∀ {visited rest}, descending l.key matching = visited ++ rest →
      l.At matching visited rest := fun h => ⟨hnodup, hread, h⟩
  have hserves : Serves serve CursorPage.nextCursor (fun p => p.items.map some) l.cursor l.respond
      limit (descending l.key matching) := by
    refine ⟨fun hsplit hlt => ?_, fun hsplit hle => ?_⟩
    · rw [hserve, (hat hsplit).readCursorParam_eq]
      exact (hat hsplit).page_more hlt
    · rw [hserve, (hat hsplit).readCursorParam_eq]
      exact (hat hsplit).page_last hle
  obtain ⟨pages, hwalk, hitems, hfull⟩ := hserves.exists_walk hlimit
  refine ⟨pages, hwalk, fun pages' h' => h'.unique hwalk,
    ⟨descending l.key matching, descending_perm matching, descending_pairwise (l.nodup_key hnodup),
      mapM_eq_some_iff.mpr ?_⟩, fun p hp => ?_, ?_⟩
  · rw [← hitems, List.map_flatMap]
  · rw [← hfull p hp, List.length_map]
  · refine hwalk.forall fun cursor p hp => ?_
    rw [hserve] at hp
    rcases hcursor : readCursorParam cursor with e | cursorKey
    · rw [hcursor] at hp
      cases hp
    · rw [hcursor] at hp
      exact l.page_total hp

end Cut

/-! ## The two lists

Both handlers are instances. The list of transactions has one thing more: filters that ask for a
category and exclude it. -/

/-- A row that a whitelist lets through has a category: `NULL` is in no list. -/
theorem exists_of_inCategories {category : Option (List SpecialCategory)}
    {special : Option SpecialCategory} {c : SpecialCategory} (hc : c ∈ category.getD [])
    (h : inCategories category special = true) : ∃ c', special = some c' := by
  rcases category with _ | _ | ⟨c₀, cs⟩
  · exact absurd hc List.not_mem_nil
  · exact absurd hc List.not_mem_nil
  · obtain ⟨c', hspecial, -⟩ := Option.any_eq_true _ _ |>.mp h
    exact ⟨c', hspecial⟩

theorem not_mem_of_outsideCategories {excludeCategory : Option (List SpecialCategory)}
    {c' : SpecialCategory} (h : outsideCategories excludeCategory (some c') = true) :
    c' ∉ excludeCategory.getD [] := by
  rcases excludeCategory with _ | _ | ⟨c₀, cs⟩
  · exact List.not_mem_nil
  · exact List.not_mem_nil
  · exact of_decide_eq_true h

/-- No row meets filters that are refused: there is one category, and it is asked for and
excluded. -/
theorem matchingTransactions_conflict {table : KeyedTable Transaction.id} {userId : UUID}
    {f : TransactionFilters} (h : f.conflict ≠ []) : matchingTransactions table userId f = [] := by
  obtain ⟨c, hc⟩ := List.exists_mem_of_ne_nil _ h
  obtain ⟨hin, hout⟩ := List.mem_filter.mp (List.mem_dedup.mp hc)
  apply List.filter_eq_nil_iff.mpr
  intro r _ hr
  obtain ⟨hr, hexclude⟩ := Bool.and_eq_true_iff.mp hr
  obtain ⟨c', hc'⟩ := exists_of_inCategories hin (Bool.and_eq_true_iff.mp hr).2
  rw [hc'] at hexclude
  have heq : c' = c := by
    cases c
    cases c'
    rfl
  exact not_mem_of_outsideCategories hexclude (heq ▸ of_decide_eq_true hout)

/-- `list_transactions` visits the matching rows, whatever the filters and the limit. -/
theorem listTransactions_exactlyVisits (table : KeyedTable Transaction.id) (userId : UUID)
    (f : TransactionFilters) {limit : ℕ} (hlimit : 1 ≤ limit) (hf : f.conflict = [])
    (hread : ∀ r ∈ matchingTransactions table userId f, transactionListing.Readable r) :
    transactionListing.ExactlyVisits (matchingTransactions table userId f) limit
      (listTransactions table userId f limit) := by
  refine Listing.exactlyVisits (fun cursor => ?_)
    (table.nodup.sublist (List.filter_sublist.map Transaction.id)) hread hlimit
  simp only [listTransactions, hf]
  rfl

/-- `list_rates` visits the matching rows, whatever the filters and the limit. -/
theorem listRates_exactlyVisits (table : RateTable) (f : RateFilters) {limit : ℕ}
    (hlimit : 1 ≤ limit) (hread : ∀ r ∈ matchingRates table f, rateListing.Readable r) :
    rateListing.ExactlyVisits (matchingRates table f) limit (listRates table f limit) :=
  Listing.exactlyVisits (fun _ => rfl)
    (table.nodup.sublist (List.filter_sublist.map CurrencyRateRow.id)) hread hlimit

theorem TransactionFilters.conflict_eq {f : TransactionFilters} (h : f.conflict ≠ []) :
    f.conflict = [.transfer] := by
  have hnodup : f.conflict.Nodup := List.nodup_dedup _
  rcases hconflict : f.conflict with _ | ⟨c, _ | ⟨c', cs⟩⟩
  · exact absurd hconflict h
  · cases c
    rfl
  · rw [hconflict] at hnodup
    cases c
    cases c'
    simp at hnodup

/-- A request with such filters is refused with the category it names twice, whatever the cursor. -/
theorem listTransactions_conflict (table : KeyedTable Transaction.id) (userId : UUID)
    {f : TransactionFilters} (limit : ℕ) (h : f.conflict ≠ []) {cursor : Option String}
    {cursorKey : Option (Timestamp × UUID)} (hcursor : readCursorParam cursor = .ok cursorKey) :
    listTransactions table userId f limit cursor = .error (.categoryConflict ["transfer"]) := by
  simp only [listTransactions, hcursor, bind, Except.bind, if_pos h]
  rw [TransactionFilters.conflict_eq h]
  rfl

/-! ## What enrichment stores

The rows the lists ask to be readable are those that enrichment writes. -/

theorem readMetadata_of_settable {metadata : Option Json} (h : Settable metadata) :
    (readMetadata metadata).isSome = true := by
  rcases metadata with _ | m
  · rfl
  · obtain ⟨d, rfl, -⟩ := h m rfl
    rfl

theorem readable_iff {r : Transaction} :
    transactionListing.Readable r ↔ (r.id < 2 ^ 128 ∧ InRange r.time) ∧
      r.cashbackAmountCents.isSome = true ∧ (readMetadata r.metadata).isSome = true := by
  simp only [Listing.Readable, transactionListing, Bool.and_eq_true, decide_eq_true_eq]
  apply and_congr_right
  intro _
  rcases hcashback : r.cashbackAmountCents with _ | cashback <;>
    rcases hmetadata : readMetadata r.metadata with _ | metadata <;>
      simp [TransactionResponse.ofRow, hcashback, hmetadata]

/-- A run of enrichment on an event with a UUID and a `datetime` leaves rows the lists can
show, where the stored ones are. -/
theorem readable_consume {env : PipelineEnv} {db : Database} {tx : NormalizedTransaction}
    (h : ∀ r ∈ db.transactions, transactionListing.Readable r) (hs : AllSettable db)
    (hn : tx.NoLayer) (hid : tx.id < 2 ^ 128) (htime : InRange tx.time) :
    ∀ r ∈ (consume env db tx).transactions, transactionListing.Readable r := by
  intro r hr
  have hmetadata := readMetadata_of_settable (hs.consume hn r hr)
  apply readable_iff.mpr
  rcases consume_row_cases hr with hr | ⟨_, _, _, _, _, _, -, rfl⟩ |
    ⟨-, r₀, hr₀, -, _, _, -, rfl⟩
  · exact readable_iff.mp (h r hr)
  · exact ⟨⟨hid, htime⟩, rfl, hmetadata⟩
  · obtain ⟨hdecodes, hcashback, -⟩ := readable_iff.mp (h r₀ hr₀)
    exact ⟨hdecodes, hcashback, hmetadata⟩

/-! ## Both lists are exact

Both lists under one statement, and the one kind of row that ends a list: a rate that is not a
number. -/

instance {ρ δ : Type} (l : Listing ρ δ) (r : ρ) : Decidable (l.Readable r) :=
  inferInstanceAs (Decidable (_ ∧ _))

/-- No filters: every row matches. -/
def RateFilters.all : RateFilters := ⟨none, none, none, none, none⟩

/-- **A rate that is not a number ends the list.** A poll may report one, the column holds it,
and the response model does not take it. -/
theorem rates_unreadable :
    ∃ table : RateTable,
      upsertPolled sampleRateDb .empty samplePair ⟨⟨none, none, .nan⟩, 300, 0⟩ = .ok table ∧
      listRates table .all 50 none = .error .unreadableRow ∧
      ¬ rateListing.ExactlyVisits (matchingRates table .all) 50 (listRates table .all 50) := by
  have herror : listRates (KeyedTable.empty.insertIgnore (openedRow sampleRateDb .empty samplePair
      ⟨none, none, .nan⟩ ⟨⟨none, none, .nan⟩, 300, 0⟩)) .all 50 none = .error .unreadableRow := rfl
  refine ⟨_, rfl, herror, ?_⟩
  rintro ⟨pages, hwalk, -, -⟩
  cases hwalk with
  | last hp _ => exact absurd (herror.symm.trans hp) (by simp)
  | more hp _ _ => exact absurd (herror.symm.trans hp) (by simp)

/-- **Keyset pagination is exact** over the rows the service can read, for all filters and
limits; filters with a category asked for and excluded are refused, and match nothing. -/
theorem pagination_exact :
    (∀ (table : KeyedTable Transaction.id) (userId : UUID) (f : TransactionFilters) (limit : ℕ),
      1 ≤ limit → (∀ r ∈ matchingTransactions table userId f, transactionListing.Readable r) →
      (f.conflict = [] →
        transactionListing.ExactlyVisits (matchingTransactions table userId f) limit
          (listTransactions table userId f limit)) ∧
      (f.conflict ≠ [] → matchingTransactions table userId f = [] ∧
        listTransactions table userId f limit none = .error (.categoryConflict ["transfer"]))) ∧
    (∀ (table : RateTable) (f : RateFilters) (limit : ℕ), 1 ≤ limit →
      (∀ r ∈ matchingRates table f, rateListing.Readable r) →
      rateListing.ExactlyVisits (matchingRates table f) limit (listRates table f limit)) ∧
    ∀ (ts : Timestamp) (id : UUID), InRange ts → id < 2 ^ 128 →
      decodeCursor (encodeCursor ts (uuidText id)) = some (isoformat ts, uuidText id) ∧
        readCursor (encodeCursor ts (uuidText id)) = some (ts, id) := by
  refine ⟨fun table userId f limit hlimit hread => ⟨fun hf => ?_, fun hf => ?_⟩, ?_, ?_⟩
  · exact listTransactions_exactlyVisits table userId f hlimit hf hread
  · exact ⟨matchingTransactions_conflict hf, listTransactions_conflict table userId limit hf rfl⟩
  · intro table f limit hlimit hread
    exact listRates_exactlyVisits table f hlimit hread
  · intro ts id hts hid
    exact ⟨decodeCursor_encodeCursor.mpr ⟨uuidText_ne_nil id, colon_not_mem_uuidText id⟩,
      readCursor_encodeCursor hts hid⟩

/-- Three transactions at one moment and two rates, a row a page. -/
theorem pagination_exact_ties :
    let table := (consumeAll sampleEnv .empty
      [sampleExpense, sampleIncome, sampleIncome']).transactions
    let rates := pollAll sampleRateDb samplePair .empty [samplePoll 41 20, samplePoll 42 30]
    let f : TransactionFilters := ⟨none, none, none, none, none, none⟩
    (table.rows.length = 3 ∧
      transactionListing.ExactlyVisits (matchingTransactions table 1 f) 1
        (listTransactions table 1 f 1)) ∧
      (rates.rows.length = 2 ∧
        rateListing.ExactlyVisits (matchingRates rates .all) 1 (listRates rates .all 1)) ∧
      readCursor (encodeCursor 20 (uuidText 1)) = some (20, 1) := by
  obtain ⟨htransactions, hrates, hcursor⟩ := pagination_exact
  refine ⟨⟨by decide +kernel, ?_⟩, ⟨by decide +kernel, ?_⟩, ?_⟩
  · exact (htransactions _ _ _ _ (by decide) (by decide +kernel)).1 (by decide)
  · exact hrates _ _ _ (by decide) (by decide +kernel)
  · exact (hcursor _ _ (by decide) (by decide)).2

end Grosh
