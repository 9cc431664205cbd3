import Grosh.Conversion
import Grosh.Lib.RecursiveQuery

/-!
# Loading the source chain

`load_source_chain` follows the fallback links in a recursive query with a cap on the depth, and
looks at the last row to see whether it was cut off. Whatever graph the links form — a chain of
any length, a source that falls back to itself, a cycle some way along — it ends, and it raises
exactly if the links do not end within the cap.

A table has its foreign key as a field, so a fallback that is not configured cannot occur; a cycle
can. The recursive query is followed round by round, and the function that walks along the links is
what the query is then shown to compute.

* `FallbackPath` — the path of the links, to a source without a fallback.
* `loadSourceChain_exact` — the query has one result: the path if it has ten sources or less, and
  an error if not.
-/

namespace Grosh

open RecursiveQuery

/-! ## The query

A recursive query collects the rows round after round, and only then are they sorted. The cap on the
depth is part of its condition. -/

/-- A row of the recursive query: a source, and how many links it is away from the entry source,
counted from one. -/
structure ChainRow : Type where
  config : RateSourceConfig
  depth : ℕ

/-- The first part of the query: the entry source, at depth one, if it is configured. -/
def chainAnchor (configs : RateSourceTable) (entrySource : String) : List ChainRow :=
  (configs.rows.filter fun r => decide (r.source = entrySource)).map fun r => ⟨r, 1⟩

/-- The second part of the query: the sources that the rows of the last round fall back to, if they
are below the cap. -/
def chainStep (configs : RateSourceTable) (chain : List ChainRow) : List ChainRow :=
  configs.rows.flatMap fun r =>
    (chain.filter fun c =>
        decide (c.config.fallbackSource = some r.source) && decide (c.depth < maxChainDepth)).map
      fun c => ⟨r, c.depth + 1⟩

/-- `load_source_chain` on the rows: the last one must not be at the cap and have a fallback. -/
def chainOfRows (rows : List ChainRow) : Except ConversionError (List RateSourceConfig) :=
  match rows.getLast? with
  | none => .ok []
  | some last =>
    if last.depth = maxChainDepth ∧ last.config.fallbackSource.isSome then .error .rateSourceChain
    else .ok (rows.map ChainRow.config)

/-- `load_source_chain` as the database runs it: the query ends, and its rows are ordered by
depth. -/
def LoadsSourceChain (configs : RateSourceTable) (entrySource : String)
    (result : Except ConversionError (List RateSourceConfig)) : Prop :=
  ∃ rows, Evaluates (chainStep configs) (chainAnchor configs entrySource) rows ∧
    result = chainOfRows (rows.insertionSort fun a b => a.depth ≤ b.depth)

/-- `rate_source_config` with its foreign key: every fallback is a source of the table. -/
structure FallbackTable : Type where
  configs : RateSourceTable
  fallback_configured : ∀ config ∈ configs, ∀ fallback, config.fallbackSource = some fallback →
    configs.HasKey fallback

/-- A source and where it falls back to. -/
def sampleFallback (source : String) (h : source.noNul = true) (fallback : Option String) :
    RateSourceConfig :=
  ⟨source, h, fallback, [], fun _ hmem => absurd hmem List.not_mem_nil⟩

/-- Eleven sources one behind the other, and two that fall back to each other. -/
def sampleLinks : List RateSourceConfig :=
  [sampleFallback "a" (by decide) (some "b"), sampleFallback "b" (by decide) (some "c"),
    sampleFallback "c" (by decide) (some "d"), sampleFallback "d" (by decide) (some "e"),
    sampleFallback "e" (by decide) (some "f"), sampleFallback "f" (by decide) (some "g"),
    sampleFallback "g" (by decide) (some "h"), sampleFallback "h" (by decide) (some "i"),
    sampleFallback "i" (by decide) (some "j"), sampleFallback "j" (by decide) (some "k"),
    sampleFallback "k" (by decide) none, sampleFallback "x" (by decide) (some "y"),
    sampleFallback "y" (by decide) (some "x")]

/-- The rows of these links, as a table with its key. -/
def sampleConfigs : RateSourceTable := sampleLinks.foldl KeyedTable.insertIgnore .empty

/-- The table of these links, in which every fallback is a source of the table. -/
def sampleTable : FallbackTable where
  configs := sampleConfigs
  fallback_configured := by
    have hfalls : ∀ config ∈ sampleConfigs.rows, ∀ fallback ∈ config.fallbackSource,
        sampleConfigs.HasKey fallback := by decide +kernel
    exact fun config hmem fallback hfallback => hfalls config hmem fallback hfallback

/-! ## The path of the links

What the links form without any cap, as a relation: following them ends, or it does not. -/

/-- The sources from a source along the links to one without a fallback. -/
inductive FallbackPath (configs : RateSourceTable) : String → List RateSourceConfig → Prop where
  | last {config : RateSourceConfig} (mem : config ∈ configs)
      (ends : config.fallbackSource = none) : FallbackPath configs config.source [config]
  | link {config : RateSourceConfig} {fallback : String} {rest : List RateSourceConfig}
      (mem : config ∈ configs) (falls : config.fallbackSource = some fallback)
      (next : FallbackPath configs fallback rest) :
      FallbackPath configs config.source (config :: rest)

variable {configs : RateSourceTable} {config : RateSourceConfig} {source entrySource : String}
  {path path' : List RateSourceConfig}

/-- **The path is the only one**: a source has one link at most. -/
theorem FallbackPath.unique (h : FallbackPath configs source path)
    (h' : FallbackPath configs source path') : path = path' := by
  induction h generalizing path' with
  | @last config mem ends =>
    generalize hs : config.source = source at h'
    cases h' with
    | last mem' =>
      rw [KeyedTable.eq_of_key_eq mem mem' hs]
    | link mem' falls =>
      rw [← KeyedTable.eq_of_key_eq mem mem' hs, ends] at falls
      cases falls
  | @link config fallback rest mem falls next ih =>
    generalize hs : config.source = source at h'
    cases h' with
    | last mem' ends =>
      rw [← KeyedTable.eq_of_key_eq mem mem' hs, falls] at ends
      cases ends
    | link mem' falls' next' =>
      obtain rfl := KeyedTable.eq_of_key_eq mem mem' hs
      obtain rfl := Option.some.inj (falls.symm.trans falls')
      rw [ih next']

/-- From every source of the path, the path goes on to the end. -/
theorem FallbackPath.suffix (h : FallbackPath configs source path) (hmem : config ∈ path) :
    ∃ rest, FallbackPath configs config.source rest ∧ rest.length ≤ path.length := by
  induction h with
  | last mem ends =>
    obtain rfl := List.mem_singleton.mp hmem
    exact ⟨_, .last mem ends, le_rfl⟩
  | link mem falls next ih =>
    rcases List.mem_cons.mp hmem with rfl | hmem
    · exact ⟨_, .link mem falls next, le_rfl⟩
    · obtain ⟨rest, hrest, hlen⟩ := ih hmem
      exact ⟨rest, hrest, hlen.trans (Nat.le_succ _)⟩

/-- **No source comes twice**: the path would go on twice from there. -/
theorem FallbackPath.nodup (h : FallbackPath configs source path) :
    (path.map RateSourceConfig.source).Nodup := by
  induction h with
  | last => exact List.nodup_singleton _
  | @link config fallback rest mem falls next ih =>
    refine List.nodup_cons.mpr ⟨fun hmem => ?_, ih⟩
    obtain ⟨config', hmem', hsource⟩ := List.mem_map.mp hmem
    obtain ⟨rest', hrest', hlen⟩ := next.suffix hmem'
    rw [hsource] at hrest'
    rw [hrest'.unique (.link mem falls next)] at hlen
    exact absurd hlen (Nat.not_succ_le_self _)

/-! ## The walk

The walk follows the links for a number of steps. It differs from the path only where it is cut
off. -/

theorem sourceChain_succ_of_none {n : ℕ} (h : configs.find? source = none) :
    sourceChain configs (n + 1) source = [] := by
  rw [sourceChain, h]

theorem sourceChain_succ_of_last {n : ℕ} (h : configs.find? source = some config)
    (hends : config.fallbackSource = none) : sourceChain configs (n + 1) source = [config] := by
  rw [sourceChain, h]
  simp only [hends]

theorem sourceChain_succ_of_link {n : ℕ} {fallback : String}
    (h : configs.find? source = some config) (hfalls : config.fallbackSource = some fallback) :
    sourceChain configs (n + 1) source = config :: sourceChain configs n fallback := by
  rw [sourceChain, h]
  simp only [hfalls]

/-- A path within the cap is walked to its end. -/
theorem sourceChain_of_path {n : ℕ} (h : FallbackPath configs source path)
    (hlen : path.length ≤ n) : sourceChain configs n source = path := by
  induction h generalizing n with
  | last mem ends =>
    obtain ⟨n, rfl⟩ := Nat.exists_eq_succ_of_ne_zero (Nat.one_le_iff_ne_zero.mp hlen)
    exact sourceChain_succ_of_last (KeyedTable.find?_eq_some.mpr ⟨mem, rfl⟩) ends
  | link mem falls next ih =>
    obtain ⟨n, rfl⟩ := Nat.exists_eq_add_of_le' (Nat.one_le_of_lt hlen)
    rw [sourceChain_succ_of_link (KeyedTable.find?_eq_some.mpr ⟨mem, rfl⟩) falls,
      ih (Nat.le_of_succ_le_succ hlen)]

/-- The last source of a path has no fallback, so loading does not take it for a cut. -/
theorem FallbackPath.getLast? (h : FallbackPath configs source path) :
    path.getLast?.any (fun c => c.fallbackSource.isSome) = false := by
  induction h with
  | last mem ends => simp [ends]
  | link mem falls next ih =>
    cases next with
    | last => exact ih
    | link => exact ih

/-- **A walk that is not a path is cut off**: it has as many sources as are allowed, and the last
one has a fallback. -/
theorem path_or_cut (table : FallbackTable) {source : String}
    (h : table.configs.HasKey source) (n : ℕ) :
    FallbackPath table.configs source (sourceChain table.configs (n + 1) source) ∨
      (sourceChain table.configs (n + 1) source).length = n + 1 ∧
        (sourceChain table.configs (n + 1) source).getLast?.any
          (fun c => c.fallbackSource.isSome) = true := by
  induction n generalizing source with
  | zero =>
    obtain ⟨config, mem, rfl⟩ := h
    have hfind := KeyedTable.find?_eq_some.mpr ⟨mem, rfl⟩
    rcases hf : config.fallbackSource with _ | fallback
    · rw [sourceChain_succ_of_last hfind hf]
      exact Or.inl (.last mem hf)
    · rw [sourceChain_succ_of_link hfind hf]
      exact Or.inr ⟨rfl, by simp [sourceChain, hf]⟩
  | succ n ih =>
    obtain ⟨config, mem, rfl⟩ := h
    have hfind := KeyedTable.find?_eq_some.mpr ⟨mem, rfl⟩
    rcases hf : config.fallbackSource with _ | fallback
    · rw [sourceChain_succ_of_last hfind hf]
      exact Or.inl (.last mem hf)
    · rw [sourceChain_succ_of_link hfind hf]
      obtain hpath | ⟨hlen, hlast⟩ := ih (table.fallback_configured config mem fallback hf)
      · exact Or.inl (.link mem hf hpath)
      · refine Or.inr ⟨by rw [List.length_cons, hlen], ?_⟩
        rw [List.getLast?_cons]
        rcases hget : (sourceChain table.configs (n + 1) fallback).getLast? with _ | last
        · rw [hget] at hlast
          cases hlast
        · rw [hget] at hlast
          exact hlast

/-! ## The query is the walk

Every round of the query has one row, since a source has one link, so its rows are those of the
walk, numbered. -/

/-- The rows of a walk that begins at a depth, each one deeper than the last. -/
def numbered : ℕ → List RateSourceConfig → List ChainRow
  | _, [] => []
  | depth, config :: chain => ⟨config, depth⟩ :: numbered (depth + 1) chain

theorem chainAnchor_eq (configs : RateSourceTable) (entrySource : String) :
    chainAnchor configs entrySource = (configs.find? entrySource).toList.map fun r => ⟨r, 1⟩ := by
  rw [chainAnchor, KeyedTable.filter_key_eq]

/-- One round from one row: the source it falls back to, if the cap is not reached. -/
theorem chainStep_singleton (configs : RateSourceTable) (config : RateSourceConfig) (depth : ℕ) :
    chainStep configs [⟨config, depth⟩] =
      if depth < maxChainDepth then
        (config.fallbackSource.bind configs.find?).toList.map fun r => ⟨r, depth + 1⟩
      else [] := by
  have hflat : ∀ rows : List RateSourceConfig, (rows.flatMap fun r =>
      ([⟨config, depth⟩].filter fun c : ChainRow =>
        decide (c.config.fallbackSource = some r.source) &&
          decide (c.depth < maxChainDepth)).map fun c => ⟨r, c.depth + 1⟩) =
      (rows.filter fun r => decide (config.fallbackSource = some r.source) &&
        decide (depth < maxChainDepth)).map fun r => (⟨r, depth + 1⟩ : ChainRow) := by
    intro rows
    induction rows with
    | nil => rfl
    | cons r rows ih =>
      rw [List.flatMap_cons, ih, List.filter_cons, List.filter_cons]
      split
      · rfl
      · rfl
  rw [chainStep, hflat]
  split
  · next hdepth =>
    simp only [hdepth, decide_true, Bool.and_true]
    rcases hf : config.fallbackSource with _ | fallback
    · simp
    · rw [Option.bind_some, ← KeyedTable.filter_key_eq]
      simp only [Option.some.injEq, eq_comm]
  · next hdepth =>
    simp only [hdepth, decide_false, Bool.and_false, List.filter_false, List.map_nil]

/-- **The query from one row on** is the walk from its source, up to the cap. -/
theorem evaluates_walk (configs : RateSourceTable) (n : ℕ) (source : String) {depth : ℕ}
    (hdepth : depth + n = maxChainDepth) :
    Evaluates (chainStep configs)
      ((configs.find? source).toList.map fun r => ⟨r, depth⟩)
      (numbered depth (sourceChain configs (n + 1) source)) := by
  induction n generalizing source depth with
  | zero =>
    rcases hfind : configs.find? source with _ | config
    · rw [sourceChain_succ_of_none hfind]
      exact .done
    · have hnext : chainStep configs [⟨config, depth⟩] = [] := by
        rw [chainStep_singleton, if_neg (by omega)]
      have hwalk : sourceChain configs 1 source = [config] := by
        rcases hf : config.fallbackSource with _ | fallback
        · exact sourceChain_succ_of_last hfind hf
        · exact sourceChain_succ_of_link hfind hf
      rw [hwalk]
      exact .cons (hnext.symm ▸ .done)
  | succ n ih =>
    rcases hfind : configs.find? source with _ | config
    · rw [sourceChain_succ_of_none hfind]
      exact .done
    · have hnext := chainStep_singleton configs config depth
      rw [if_pos (by omega)] at hnext
      rcases hf : config.fallbackSource with _ | fallback
      · rw [sourceChain_succ_of_last hfind hf]
        rw [hf] at hnext
        exact .cons (hnext.symm ▸ .done)
      · rw [sourceChain_succ_of_link hfind hf]
        rw [hf] at hnext
        exact .cons (hnext.symm ▸ ih fallback (by omega))

theorem le_of_mem_numbered {chain : List RateSourceConfig} {depth : ℕ} {r : ChainRow}
    (h : r ∈ numbered depth chain) : depth ≤ r.depth := by
  induction chain generalizing depth with
  | nil => cases h
  | cons config chain ih =>
    rcases List.mem_cons.mp h with rfl | h
    · exact le_rfl
    · exact (Nat.le_succ depth).trans (ih h)

/-- The rows come in the order of their depth. -/
theorem insertionSort_numbered (depth : ℕ) (chain : List RateSourceConfig) :
    (numbered depth chain).insertionSort (fun a b => a.depth ≤ b.depth) =
      numbered depth chain := by
  apply List.Pairwise.insertionSort_eq
  induction chain generalizing depth with
  | nil => exact List.Pairwise.nil
  | cons config chain ih =>
    exact List.pairwise_cons.mpr
      ⟨fun r hr => (Nat.le_succ depth).trans (le_of_mem_numbered hr), ih (depth + 1)⟩

theorem map_numbered (depth : ℕ) (chain : List RateSourceConfig) :
    (numbered depth chain).map ChainRow.config = chain := by
  induction chain generalizing depth with
  | nil => rfl
  | cons config chain ih => exact congrArg (config :: ·) (ih (depth + 1))

/-- The depth of the last row tells how many there are. -/
theorem numbered_concat (depth : ℕ) (chain : List RateSourceConfig) (last : RateSourceConfig) :
    numbered depth (chain ++ [last]) =
      numbered depth chain ++ [⟨last, depth + chain.length⟩] := by
  induction chain generalizing depth with
  | nil => rfl
  | cons config chain ih =>
    have hdepth : depth + (config :: chain).length = depth + 1 + chain.length := by
      rw [List.length_cons]
      omega
    rw [List.cons_append, numbered, ih, hdepth]
    rfl

theorem chainOfRows_numbered (configs : RateSourceTable) (entrySource : String) :
    chainOfRows (numbered 1 (sourceChain configs maxChainDepth entrySource)) =
      loadSourceChain configs entrySource := by
  rw [loadSourceChain]
  obtain hnil | ⟨chain, last, hlast⟩ :=
    List.eq_nil_or_concat (sourceChain configs maxChainDepth entrySource)
  · rw [hnil]
    rfl
  · have hrows := congrArg (List.map ChainRow.config) (numbered_concat 1 chain last)
    rw [map_numbered] at hrows
    rw [hlast, List.concat_eq_append, numbered_concat, chainOfRows, List.getLast?_concat]
    dsimp only
    rw [← hrows, List.getLast?_concat, List.length_append, List.length_singleton, Nat.add_comm 1]
    rfl

/-- **The cap ends the query**, whatever graph the links form: each round is one deeper. -/
theorem query_ends (configs : RateSourceTable) (chain : List ChainRow) :
    ∃ rows, Evaluates (chainStep configs) chain rows := by
  refine exists_evaluates (fun r => maxChainDepth - r.depth) (fun chain r' hr' => ?_) chain
  obtain ⟨r, -, hr'⟩ := List.mem_flatMap.mp hr'
  obtain ⟨c, hc, rfl⟩ := List.mem_map.mp hr'
  obtain ⟨hmem, hcond⟩ := List.mem_filter.mp hc
  have hdepth := of_decide_eq_true (Bool.and_eq_true_iff.mp hcond).2
  exact ⟨c, hmem, Nat.sub_lt_sub_left hdepth (Nat.lt_succ_self _)⟩

/-- **The query has one result**, the one that the walk gives. -/
theorem loadsSourceChain_iff {result : Except ConversionError (List RateSourceConfig)} :
    LoadsSourceChain configs entrySource result ↔ result = loadSourceChain configs entrySource := by
  have hwalk : Evaluates (chainStep configs) (chainAnchor configs entrySource)
      (numbered 1 (sourceChain configs maxChainDepth entrySource)) := by
    rw [chainAnchor_eq]
    exact evaluates_walk configs 9 entrySource rfl
  constructor
  · rintro ⟨rows, hrows, rfl⟩
    rw [hrows.unique hwalk, insertionSort_numbered]
    exact chainOfRows_numbered configs entrySource
  · rintro rfl
    refine ⟨_, hwalk, ?_⟩
    rw [insertionSort_numbered]
    exact (chainOfRows_numbered configs entrySource).symm

/-! ## What it loads

From the walk to what is loaded, and to when it raises. -/

theorem length_sourceChain_le (configs : RateSourceTable) (n : ℕ) (source : String) :
    (sourceChain configs n source).length ≤ n := by
  induction n generalizing source with
  | zero => exact le_rfl
  | succ n ih =>
    rcases hfind : configs.find? source with _ | config
    · rw [sourceChain_succ_of_none hfind]
      exact Nat.zero_le _
    rcases hf : config.fallbackSource with _ | fallback
    · rw [sourceChain_succ_of_last hfind hf]
      exact Nat.succ_le_succ (Nat.zero_le n)
    · rw [sourceChain_succ_of_link hfind hf]
      exact Nat.succ_le_succ (ih fallback)

/-- **A configured source** has a path within the cap, which is loaded, or it has none, and
loading raises. -/
theorem loadSourceChain_cases (table : FallbackTable) (h : table.configs.HasKey entrySource) :
    (∃ path, FallbackPath table.configs entrySource path ∧ path.length ≤ maxChainDepth ∧
      loadSourceChain table.configs entrySource = .ok path) ∨
    (¬ ∃ path, FallbackPath table.configs entrySource path ∧ path.length ≤ maxChainDepth) ∧
      loadSourceChain table.configs entrySource = .error .rateSourceChain := by
  obtain hpath | ⟨hlen, hlast⟩ := path_or_cut table h 9
  · refine Or.inl ⟨_, hpath, length_sourceChain_le _ _ _, if_neg fun hcut => ?_⟩
    exact absurd (hpath.getLast?.symm.trans hcut.2) Bool.false_ne_true
  · refine Or.inr ⟨?_, if_pos ⟨hlen, hlast⟩⟩
    rintro ⟨path, hpath, hshort⟩
    have hwalk := sourceChain_of_path hpath hshort
    rw [show 9 + 1 = maxChainDepth from rfl, hwalk, hpath.getLast?] at hlast
    cases hlast

theorem loadSourceChain_of_not_hasKey (h : ¬ configs.HasKey entrySource) :
    loadSourceChain configs entrySource = .ok [] := by
  have hwalk : sourceChain configs maxChainDepth entrySource = [] :=
    sourceChain_succ_of_none (KeyedTable.find?_eq_none.mpr h)
  rw [loadSourceChain, hwalk]
  rfl

/-- **Loading the source chain** ends with one result, from every table with its foreign key and
every source. A source that is not configured has the empty chain. From one that is, loading
raises exactly if the links do not reach a source without a fallback within ten sources; and what
it returns is the path of the links, in order, with no source twice. -/
theorem loadSourceChain_exact (table : FallbackTable) (entrySource : String) :
    (∃ result, LoadsSourceChain table.configs entrySource result) ∧
    ∀ result, LoadsSourceChain table.configs entrySource result →
      result = loadSourceChain table.configs entrySource ∧
      (¬ table.configs.HasKey entrySource → result = .ok []) ∧
      (table.configs.HasKey entrySource →
        (result = .error .rateSourceChain ↔
          ¬ ∃ path, FallbackPath table.configs entrySource path ∧ path.length ≤ 10) ∧
        (∀ e, result = .error e → e = .rateSourceChain) ∧
        ∀ chain, result = .ok chain → FallbackPath table.configs entrySource chain ∧
          chain.length ≤ 10 ∧ (chain.map RateSourceConfig.source).Nodup) := by
  obtain ⟨rows, hrows⟩ := query_ends table.configs (chainAnchor table.configs entrySource)
  refine ⟨⟨_, rows, hrows, rfl⟩, fun result h => ?_⟩
  obtain rfl := loadsSourceChain_iff.mp h
  refine ⟨rfl, loadSourceChain_of_not_hasKey, fun hkey => ?_⟩
  obtain ⟨path, hpath, hlen, hload⟩ | ⟨hnone, hload⟩ := loadSourceChain_cases table hkey
  · rw [hload]
    refine ⟨?_, (fun e he => by cases he), fun chain hchain => ?_⟩
    · exact iff_of_false (fun h => by cases h) fun hnone => hnone ⟨path, hpath, hlen⟩
    · obtain rfl := Except.ok.inj hchain
      exact ⟨hpath, hlen, hpath.nodup⟩
  · rw [hload]
    refine ⟨iff_of_true rfl hnone, fun e he => (Except.error.inj he).symm, fun chain hchain => ?_⟩
    cases hchain

/-- Eleven sources are one too many, and a cycle is not loaded either. From the second source on
there are ten, which are loaded in order. -/
theorem loadSourceChain_exact_links :
    (∀ source ∈ ["a", "x"], ∀ result, LoadsSourceChain sampleTable.configs source result →
      result = .error .rateSourceChain) ∧
    ¬ (∃ path, FallbackPath sampleTable.configs "x" path ∧ path.length ≤ 10) ∧
    ∀ result, LoadsSourceChain sampleTable.configs "b" result →
      result.toOption.map (fun chain => chain.map RateSourceConfig.source) =
        some ["b", "c", "d", "e", "f", "g", "h", "i", "j", "k"] := by
  have hcut : ∀ source ∈ ["a", "x"],
      loadSourceChain sampleTable.configs source = .error .rateSourceChain := by
    intro source hmem
    apply if_pos
    revert source hmem
    decide +kernel
  refine ⟨fun source hmem result h => ?_, ?_, fun result h => ?_⟩
  · exact ((loadSourceChain_exact sampleTable source).2 result h).1.trans (hcut source hmem)
  · obtain ⟨result, h⟩ := (loadSourceChain_exact sampleTable "x").1
    have hexact := (loadSourceChain_exact sampleTable "x").2 result h
    -- the cycle is configured, and its query raises
    exact (hexact.2.2 (by decide +kernel)).1.mp (hexact.1.trans (hcut "x" (by decide)))
  · rw [((loadSourceChain_exact sampleTable "b").2 result h).1]
    decide +kernel

end Grosh
