import HelionDb.Mvcc

/-! Well-formed version chains: the last version is open, every earlier one was closed by an id that
has been handed out, and so was every creator. On such a chain the three ways in which the source
looks for the latest version find the last one. -/

namespace HelionDb

/-- A chain all of whose ids are below `next`, with exactly its last version open. -/
structure ChainWf (next : Nat) (chain : Chain) : Prop where
  shape : ∃ prior latest, chain = prior ++ [latest] ∧ latest.txidMax = u64Max ∧
    ∀ version ∈ prior, version.txidMax < next
  creators : ∀ version ∈ chain, version.txidMin < next

/-- An open last version is selected from where its creator is seen. -/
theorem selectVersion_concat {prior : Chain} {latest : RowVersion} {txid : Nat} {active : Finset Nat}
    (hopen : latest.txidMax = u64Max) (hmin : latest.txidMin ≤ txid) (hactive : latest.txidMin ∉ active) :
    selectVersion (prior ++ [latest]) txid active = some latest := by
  have hvisible : isVersionVisible latest txid active = true :=
    isVersionVisible_iff.mpr ⟨hmin, Or.inl hopen, fun hmem => absurd hmem hactive⟩
  simp [selectVersion, hvisible]

namespace ChainWf

variable {next : Nat} {chain : Chain}

theorem ne_nil (h : ChainWf next chain) : chain ≠ [] := by
  obtain ⟨prior, latest, rfl, _⟩ := h.shape
  simp

theorem mono {later : Nat} (h : ChainWf next chain) (hle : next ≤ later) : ChainWf later chain := by
  obtain ⟨prior, latest, hchain, hopen, hclosed⟩ := h.shape
  exact ⟨⟨prior, latest, hchain, hopen, fun version hversion => (hclosed version hversion).trans_le hle⟩,
    fun version hversion => (h.creators version hversion).trans_le hle⟩

theorem single {version : RowVersion} (hopen : version.txidMax = u64Max) (hmin : version.txidMin < next) :
    ChainWf next [version] :=
  ⟨⟨[], version, rfl, hopen, by simp⟩, by simpa using hmin⟩

theorem extend {txid : Nat} {version : RowVersion} (h : ChainWf next chain) (htxid : txid < next)
    (hopen : version.txidMax = u64Max) (hmin : version.txidMin < next) :
    ChainWf next (extendChain txid version chain) := by
  obtain ⟨prior, latest, rfl, -, hclosed⟩ := h.shape
  rw [extendChain, closeLatest_concat]
  refine ⟨⟨_, version, rfl, hopen, ?_⟩, ?_⟩
  · intro old hold
    rcases List.mem_append.mp hold with hprior | hlatest
    · exact hclosed old hprior
    · rw [List.mem_singleton.mp hlatest]
      exact htxid
  · intro old hold
    rcases List.mem_append.mp hold with hbefore | hnew
    · rcases List.mem_append.mp hbefore with hprior | hlatest
      · exact h.creators old (List.mem_append_left _ hprior)
      · rw [List.mem_singleton.mp hlatest]
        exact h.creators latest (List.mem_append_right _ List.mem_cons_self)
    · rw [List.mem_singleton.mp hnew]
      exact hmin

/-- A snapshot that is late enough and has no creator of the chain among its active ids selects the
last version. -/
theorem selectVersion_eq (h : ChainWf next chain) {txid : Nat}
    (htxid : next ≤ txid) {active : Finset Nat} (hactive : ∀ version ∈ chain, version.txidMin ∉ active) :
    selectVersion chain txid active = chain.getLast? := by
  obtain ⟨prior, latest, rfl, hopen, -⟩ := h.shape
  have hlatest : latest ∈ prior ++ [latest] := List.mem_append_right _ List.mem_cons_self
  rw [selectVersion_concat hopen ((h.creators latest hlatest).le.trans htxid) (hactive latest hlatest),
    List.getLast?_concat]

theorem latestVisible_eq (h : ChainWf next chain) {txid : Nat}
    (htxid : next ≤ txid) {active : Finset Nat} (hactive : ∀ version ∈ chain, version.txidMin ∉ active) :
    latestVisible chain txid active = chain.getLast?.filter fun version => !version.isDeleted := by
  rw [latestVisible, h.selectVersion_eq htxid hactive]

end ChainWf

/-- The row a chain holds now: that of its last version unless it is a tombstone. -/
def liveRow (chain : Chain) : Option Row :=
  (chain.getLast?.filter fun version => !version.isDeleted).map (·.row)

@[simp] theorem liveRow_extendChain (txid : Nat) (version : RowVersion) (chain : Chain) :
    liveRow (extendChain txid version chain) = if version.isDeleted then none else some version.row := by
  cases hdeleted : version.isDeleted <;> simp [liveRow, extendChain, hdeleted]

@[simp] theorem liveRow_single (version : RowVersion) :
    liveRow [version] = if version.isDeleted then none else some version.row := by
  cases hdeleted : version.isDeleted <;> simp [liveRow, hdeleted]

/-- The row at a position of a list of chains. -/
def rowAt (chains : List Chain) (rowIdx : Nat) : Option Row := chains[rowIdx]?.bind liveRow

/-- All chains of a list are well formed. -/
def ChainsWf (next : Nat) (chains : List Chain) : Prop := ∀ chain ∈ chains, ChainWf next chain

namespace ChainsWf

variable {next : Nat} {chains : List Chain}

theorem mono {later : Nat} (h : ChainsWf next chains) (hle : next ≤ later) : ChainsWf later chains :=
  fun chain hchain => (h chain hchain).mono hle

theorem placeVersion {txid rowIdx : Nat} {version : RowVersion} (h : ChainsWf next chains)
    (htxid : txid < next) (hopen : version.txidMax = u64Max) (hmin : version.txidMin < next) :
    ChainsWf next (placeVersion txid chains (rowIdx, version)) := by
  intro chain hchain
  rcases mem_placeVersion hchain with hold | ⟨old, hold, rfl⟩ | rfl
  · exact h chain hold
  · exact (h old hold).extend htxid hopen hmin
  · exact .single hopen hmin

theorem placeAll {txid : Nat} {changes : List (Nat × RowVersion)} (h : ChainsWf next chains)
    (htxid : txid < next)
    (hchanges : ∀ change ∈ changes, change.2.txidMin = txid ∧ change.2.txidMax = u64Max) :
    ChainsWf next (placeAll txid chains changes) := by
  induction changes generalizing chains with
  | nil => exact h
  | cons change rest ih =>
      obtain ⟨hmin, hopen⟩ := hchanges change List.mem_cons_self
      exact ih (h.placeVersion htxid hopen (hmin ▸ htxid))
        fun other hother => hchanges other (List.mem_cons_of_mem _ hother)

/-- `get_visible_row` reads the live row. -/
theorem getVisibleRow_eq {table : Table} (h : ChainsWf next table.versionChains) (hnext : next ≤ u64Max)
    (rowIdx : Nat) : table.getVisibleRow rowIdx = rowAt table.versionChains rowIdx := by
  unfold Table.getVisibleRow rowAt
  cases hchain : table.versionChains[rowIdx]? with
  | none => rfl
  | some chain =>
      obtain ⟨prior, latest, rfl, hopen, hclosed⟩ := (h chain (List.mem_of_getElem? hchain)).shape
      have hprior : (prior.reverse.find? fun version => version.txidMax == u64Max && !version.isDeleted) = none := by
        refine List.find?_eq_none.mpr fun version hversion hfound => ?_
        have hlt := hclosed version (List.mem_reverse.mp hversion)
        simp only [Bool.and_eq_true, beq_iff_eq] at hfound
        omega
      cases hdeleted : latest.isDeleted with
      | true => simp [liveRow, hopen, hdeleted, hprior]
      | false => simp [liveRow, hopen, hdeleted]

/-- What a snapshot that is late enough scans. -/
theorem mem_scanVisible {table : Table} (h : ChainsWf next table.versionChains) {txid : Nat}
    (htxid : next ≤ txid) {active : Finset Nat}
    (hactive : ∀ chain ∈ table.versionChains, ∀ version ∈ chain, version.txidMin ∉ active) {rowIdx : Nat}
    {row : Row} :
    (rowIdx, row) ∈ table.scanVisible txid active ↔ rowAt table.versionChains rowIdx = some row := by
  rw [Table.mem_scanVisible, rowAt, Option.bind_eq_some_iff]
  refine exists_congr fun chain => and_congr_right fun hchain => ?_
  have hmem := List.mem_of_getElem? hchain
  rw [(h chain hmem).latestVisible_eq htxid (hactive chain hmem), liveRow, Option.map_eq_some_iff]

theorem mem_livePairs {table : Table} (h : ChainsWf next table.versionChains) (hnext : next ≤ u64Max)
    {definition : IndexMeta} {key : List Datum} {rowIdx : Nat} :
    (key, rowIdx) ∈ table.livePairs definition ↔
      ∃ row, rowAt table.versionChains rowIdx = some row ∧ definition.extractKey row = key := by
  refine exists_congr fun row => and_congr_left fun _ => ?_
  exact h.mem_scanVisible hnext (by simp)

end ChainsWf

/-! ### Live rows under placement -/

section RowAt

variable {txid : Nat} {chains : List Chain} {rowIdx other : Nat} {version : RowVersion}

theorem rowAt_placeVersion_of_lt (hrow : rowIdx < chains.length) :
    rowAt (placeVersion txid chains (rowIdx, version)) other =
      if other = rowIdx then if version.isDeleted then none else some version.row
      else rowAt chains other := by
  by_cases hother : other = rowIdx
  · subst hother
    rw [if_pos rfl, rowAt, getElem?_placeVersion_self hrow]
    exact liveRow_extendChain _ _ _
  · rw [if_neg hother, rowAt, rowAt, placeVersion_of_lt hrow, List.getElem?_modify_ne _ _ (Ne.symm hother)]

theorem rowAt_placeVersion_of_le (hrow : chains.length ≤ rowIdx) :
    rowAt (placeVersion txid chains (rowIdx, version)) other =
      if other = chains.length then if version.isDeleted then none else some version.row
      else rowAt chains other := by
  by_cases hother : other = chains.length
  · subst hother
    rw [if_pos rfl, rowAt, getElem?_placeVersion_new hrow]
    exact liveRow_single _
  · rw [if_neg hother, rowAt, rowAt, placeVersion_of_le hrow]
    rcases Nat.lt_or_ge other chains.length with hlt | hge
    · rw [List.getElem?_append_left hlt]
    · rw [List.getElem?_eq_none hge, List.getElem?_eq_none]
      rw [List.length_append, List.length_singleton]
      omega

theorem rowAt_eq_none_of_le (hrow : chains.length ≤ rowIdx) : rowAt chains rowIdx = none := by
  rw [rowAt, List.getElem?_eq_none hrow]
  rfl

end RowAt

end HelionDb
