import HelionDb.IndexConsistency
import HelionDb.IndexScan
import HelionDb.OrderedMaps
import HelionDb.ValueOrder

/-! Range scans of an index. The order of index keys is total and tells different keys apart, floats included, whose
bits `total_cmp` turns round behind a sign. In every serial run under the guard of the indexes, a range scan finds the
rows that a scan of the table would find by their keys. -/

namespace HelionDb

namespace Datum

/-- Turning the other bits round keeps the sign. -/
theorem totalKey_neg_iff {width : Nat} (bits : BitVec width) : totalKey bits < 0 ↔ bits.msb = true := by
  have hneg : ∀ bits : BitVec width, bits.toInt < 0 ↔ bits.msb = true := by
    intro bits
    rw [BitVec.msb_eq_toInt, decide_eq_true_iff]
  unfold totalKey
  split
  · rename_i hmsb
    rw [hneg, BitVec.msb_xor, BitVec.msb_ushiftRight, hmsb]
    simp
  · exact hneg bits

/-- `total_cmp` tells floats with different bits apart. -/
theorem totalKey_injective (width : Nat) : Function.Injective (@totalKey width) := by
  intro left right heq
  have hsign : left.msb = right.msb := by
    rw [Bool.eq_iff_iff, ← totalKey_neg_iff, ← totalKey_neg_iff, heq]
  unfold totalKey at heq
  rw [hsign] at heq
  split at heq
  · exact (BitVec.xor_left_inj _).mp (BitVec.toInt_inj.mp heq)
  · exact BitVec.toInt_inj.mp heq

theorem within_of_key {β γ : Type} [Ord β] [Std.TransOrd β] [Std.LawfulEqOrd β] {n : Nat} (make : γ → Datum) (key : γ → β)
    (hkey : Function.Injective key) (hmake : ∀ b : Datum, b.variantIdx = n → ∃ x, b = make x)
    (hcmp : ∀ x y, (make x).cmp (make y) = compare (key x) (key y)) :
    Comparator.OrdersTotally (fun b c : Datum => some (b.cmp c)) fun b => b.variantIdx = n :=
  Comparator.ordersTotally_of_key make key hkey hmake fun x y => congrArg some (hcmp x y)

/-- The values of one type are ordered by what they are made from. -/
theorem cmp_within (a : Datum) :
    Comparator.OrdersTotally (fun b c : Datum => some (b.cmp c)) fun b => b.variantIdx = a.variantIdx := by
  cases a with
  | boolean _ =>
      apply within_of_key boolean id Function.injective_id _ fun _ _ => rfl
      intro b hb
      cases b <;> cases hb
      exact ⟨_, rfl⟩
  | smallInt _ =>
      apply within_of_key smallInt Int16.toInt (fun _ _ => Int16.toInt_inj.mp) _ fun _ _ => rfl
      intro b hb
      cases b <;> cases hb
      exact ⟨_, rfl⟩
  | unsignedSmallInt _ =>
      apply within_of_key unsignedSmallInt UInt16.toNat (fun _ _ => UInt16.toNat_inj.mp) _ fun _ _ => rfl
      intro b hb
      cases b <;> cases hb
      exact ⟨_, rfl⟩
  | integer _ =>
      apply within_of_key integer Int32.toInt (fun _ _ => Int32.toInt_inj.mp) _ fun _ _ => rfl
      intro b hb
      cases b <;> cases hb
      exact ⟨_, rfl⟩
  | unsignedInteger _ =>
      apply within_of_key unsignedInteger UInt32.toNat (fun _ _ => UInt32.toNat_inj.mp) _ fun _ _ => rfl
      intro b hb
      cases b <;> cases hb
      exact ⟨_, rfl⟩
  | bigInt _ =>
      apply within_of_key bigInt Int64.toInt (fun _ _ => Int64.toInt_inj.mp) _ fun _ _ => rfl
      intro b hb
      cases b <;> cases hb
      exact ⟨_, rfl⟩
  | unsignedBigInt _ =>
      apply within_of_key unsignedBigInt UInt64.toNat (fun _ _ => UInt64.toNat_inj.mp) _ fun _ _ => rfl
      intro b hb
      cases b <;> cases hb
      exact ⟨_, rfl⟩
  | real _ =>
      apply within_of_key real totalKey (totalKey_injective 32) _ fun _ _ => rfl
      intro b hb
      cases b <;> cases hb
      exact ⟨_, rfl⟩
  | double _ =>
      apply within_of_key double totalKey (totalKey_injective 64) _ fun _ _ => rfl
      intro b hb
      cases b <;> cases hb
      exact ⟨_, rfl⟩
  | varChar _ =>
      apply within_of_key varChar id Function.injective_id _ fun _ _ => rfl
      intro b hb
      cases b <;> cases hb
      exact ⟨_, rfl⟩
  | char _ =>
      apply within_of_key char id Function.injective_id _ fun _ _ => rfl
      intro b hb
      cases b <;> cases hb
      exact ⟨_, rfl⟩
  | text _ =>
      apply within_of_key text id Function.injective_id _ fun _ _ => rfl
      intro b hb
      cases b <;> cases hb
      exact ⟨_, rfl⟩
  | binary _ =>
      apply within_of_key binary id Function.injective_id _ fun _ _ => rfl
      intro b hb
      cases b <;> cases hb
      exact ⟨_, rfl⟩
  | date _ =>
      apply within_of_key date id Function.injective_id _ fun _ _ => rfl
      intro b hb
      cases b <;> cases hb
      exact ⟨_, rfl⟩
  | time _ =>
      apply within_of_key time id Function.injective_id _ fun _ _ => rfl
      intro b hb
      cases b <;> cases hb
      exact ⟨_, rfl⟩
  | timestamp _ =>
      apply within_of_key timestamp id Function.injective_id _ fun _ _ => rfl
      intro b hb
      cases b <;> cases hb
      exact ⟨_, rfl⟩
  | timestampTz _ =>
      apply within_of_key timestampTz Int64.toInt (fun _ _ => Int64.toInt_inj.mp) _ fun _ _ => rfl
      intro b hb
      cases b <;> cases hb
      exact ⟨_, rfl⟩
  | uuid _ =>
      apply within_of_key uuid BitVec.toNat (fun _ _ => BitVec.eq_of_toNat_eq) _ fun _ _ => rfl
      intro b hb
      cases b <;> cases hb
      exact ⟨_, rfl⟩
  | uuidV7 _ =>
      apply within_of_key uuidV7 BitVec.toNat (fun _ _ => BitVec.eq_of_toNat_eq) _ fun _ _ => rfl
      intro b hb
      cases b <;> cases hb
      exact ⟨_, rfl⟩
  | null =>
      apply within_of_key (fun _ : Unit => null) (fun _ => false) (fun _ _ _ => rfl) _ fun _ _ => rfl
      intro b hb
      cases b <;> cases hb
      exact ⟨(), rfl⟩

theorem ordersByRank : Comparator.OrdersByRank cmp variantIdx where
  apart _ _ hrank := if_pos hrank
  within := cmp_within

instance : Std.TransCmp cmp := ordersByRank.transCmp

instance : Std.LawfulEqCmp cmp := ordersByRank.lawfulEqCmp

end Datum

/-! ### Range scans -/

namespace Index

/-- `Ord::cmp` of the keys: the first values that differ decide, and a part at the front comes first. -/
def keyCmp : List Datum → List Datum → Ordering := List.compareLex Datum.cmp

instance : Std.TransCmp keyCmp := inferInstanceAs (Std.TransCmp (List.compareLex Datum.cmp))

instance : Std.LawfulEqCmp keyCmp := inferInstanceAs (Std.LawfulEqCmp (List.compareLex Datum.cmp))

/-- `Index::len`. -/
def len (index : Index) : Nat := index.entries.keys.card

/-- The entries of `BTreeMap::range`. -/
def between (index : Index) (start stop : Bound (List Datum)) : List (List Datum × Finset Nat) :=
  OrderedMap.between keyCmp index.entries start stop

/-- `Index::range`; inverted bounds panic. -/
def range (index : Index) (start stop : Bound (List Datum)) : Option (List (List Datum × Finset Nat)) :=
  if start.inverted keyCmp stop then none else some (index.between start stop)

/-- `results.extend(row_idxs)` for one entry after the other, then the results in order. -/
def collect (found : List (List Datum × Finset Nat)) : List Nat :=
  (found.foldl (fun (results : Finset Nat) entry => results ∪ entry.2) ∅).sort

/-- `Index::scan_from`. -/
def scanFrom (index : Index) (low : List Datum) : List Nat := collect (index.between (.included low) .unbounded)

/-- `Index::scan_to`. -/
def scanTo (index : Index) (high : List Datum) : List Nat := collect (index.between .unbounded (.included high))

/-- `Index::all_row_idxs`. -/
def allRowIdxs (index : Index) : List Nat := collect (index.between .unbounded .unbounded)

variable {index : Index} {start stop : Bound (List Datum)}

theorem mem_collect {found : List (List Datum × Finset Nat)} {rowIdx : Nat} :
    rowIdx ∈ collect found ↔ ∃ entry ∈ found, rowIdx ∈ entry.2 := by
  have hfold : ∀ results : Finset Nat, rowIdx ∈ found.foldl (fun results entry => results ∪ entry.2) results ↔
      rowIdx ∈ results ∨ ∃ entry ∈ found, rowIdx ∈ entry.2 := by
    induction found with
    | nil => simp
    | cons entry rest ih =>
        intro results
        rw [List.foldl_cons, ih, Finset.mem_union, or_assoc, List.exists_mem_cons_iff]
  rw [collect, Finset.mem_sort, hfold]
  simp

/-- The rows that are collected between two bounds are those of the pairs whose key lies there. -/
theorem mem_collect_between {rowIdx : Nat} :
    rowIdx ∈ collect (index.between start stop) ↔
      ∃ key, (key, rowIdx) ∈ index.pairs ∧ start.below keyCmp key = true ∧ stop.above keyCmp key = true := by
  rw [mem_collect]
  constructor
  · rintro ⟨entry, hentry, hrow⟩
    obtain ⟨hlookup, hbounds⟩ := OrderedMap.mem_between.mp hentry
    exact ⟨entry.1, mem_pairs.mpr ⟨entry.2, hlookup, hrow⟩, hbounds⟩
  · rintro ⟨key, hpair, hbounds⟩
    obtain ⟨rows, hget, hrow⟩ := mem_pairs.mp hpair
    exact ⟨(key, rows), OrderedMap.mem_between.mpr ⟨hget, hbounds⟩, hrow⟩

end Index

namespace Table

/-- The positions of the live rows whose key in an index meets a condition, in the order of a scan. -/
def positionsWhere (table : Table) (definition : IndexMeta) (meets : List Datum → Bool) : List Nat :=
  ((table.scanVisible u64Max ∅).filter fun entry => meets (definition.extractKey entry.2)).map Prod.fst

variable {table : Table} {definition : IndexMeta} {meets : List Datum → Bool}

theorem mem_positionsWhere {rowIdx : Nat} :
    rowIdx ∈ table.positionsWhere definition meets ↔
      ∃ key, (key, rowIdx) ∈ table.livePairs definition ∧ meets key = true := by
  rw [positionsWhere, List.mem_map]
  constructor
  · rintro ⟨entry, hentry, rfl⟩
    obtain ⟨hlive, hmeets⟩ := List.mem_filter.mp hentry
    exact ⟨definition.extractKey entry.2, ⟨entry.2, hlive, rfl⟩, hmeets⟩
  · rintro ⟨key, ⟨row, hlive, rfl⟩, hmeets⟩
    exact ⟨(rowIdx, row), List.mem_filter.mpr ⟨hlive, hmeets⟩, rfl⟩

theorem pairwise_positionsWhere (table : Table) (definition : IndexMeta) (meets : List Datum → Bool) :
    (table.positionsWhere definition meets).Pairwise (· < ·) :=
  List.pairwise_map.mpr ((table.pairwise_scanVisible u64Max ∅).filter _)

/-- A set of positions in order is the list of those that a scan finds, if it has the same. -/
theorem sort_eq_positionsWhere {rows : Finset Nat} (h : ∀ rowIdx, rowIdx ∈ rows ↔
    rowIdx ∈ table.positionsWhere definition meets) : rows.sort = table.positionsWhere definition meets := by
  have hsorted := table.pairwise_positionsWhere definition meets
  have hrows : rows = (table.positionsWhere definition meets).toFinset := by
    ext rowIdx
    rw [h, List.mem_toFinset]
  rw [hrows]
  exact (List.toFinset_sort _ (hsorted.imp Nat.ne_of_lt)).mpr (hsorted.imp Nat.le_of_lt)

end Table

namespace Index

/-- The scans of an index find what scans of the table do: by the order of the keys from one on, up to one, all rows,
and for a range the keys that live rows have in it, from the lowest up, each with the rows that have it. -/
structure ScansAs (table : Table) (index : Index) : Prop where
  scanFrom : ∀ low, index.scanFrom low = table.positionsWhere index.definition fun key => (keyCmp low key).isLE
  scanTo : ∀ high, index.scanTo high = table.positionsWhere index.definition fun key => (keyCmp key high).isLE
  allRowIdxs : index.allRowIdxs = (table.scanVisible u64Max ∅).map Prod.fst
  len : index.len = ((table.scanVisible u64Max ∅).map fun entry => index.definition.extractKey entry.2).toFinset.card
  range : ∀ start stop found, index.range start stop = some found →
    found.Pairwise (fun left right => keyCmp left.1 right.1 = .lt) ∧
      ∀ key rows, (key, rows) ∈ found ↔ start.below keyCmp key = true ∧ stop.above keyCmp key = true ∧
        rows ≠ ∅ ∧ rows.sort = table.positionsWhere index.definition fun other => decide (other = key)
  refused : ∀ start stop, index.range start stop = none →
    table.positionsWhere index.definition (fun key => start.below keyCmp key && stop.above keyCmp key) = []

variable {table : Table} {index : Index} {start stop : Bound (List Datum)}

theorem collect_between (hconsistent : index.pairs = table.livePairs index.definition) :
    collect (index.between start stop) =
      table.positionsWhere index.definition fun key => start.below keyCmp key && stop.above keyCmp key := by
  have hmem : ∀ rowIdx, rowIdx ∈ collect (index.between start stop) ↔ rowIdx ∈ table.positionsWhere index.definition
      fun key => start.below keyCmp key && stop.above keyCmp key := by
    intro rowIdx
    rw [mem_collect_between, Table.mem_positionsWhere, hconsistent]
    simp only [Bool.and_eq_true]
  simp only [collect, Finset.mem_sort] at hmem
  exact Table.sort_eq_positionsWhere hmem

theorem get_eq_some_iff (hconsistent : index.pairs = table.livePairs index.definition) {key : List Datum}
    {rows : Finset Nat} :
    index.get key = some rows ↔
      rows ≠ ∅ ∧ rows.sort = table.positionsWhere index.definition fun other => decide (other = key) := by
  have hmem : ∀ rowIdx, rowIdx ∈ table.positionsWhere index.definition (fun other => decide (other = key)) ↔
      (key, rowIdx) ∈ index.pairs := by
    intro rowIdx
    rw [Table.mem_positionsWhere, hconsistent]
    constructor
    · rintro ⟨other, hpair, hkey⟩
      rwa [← of_decide_eq_true hkey]
    · intro hpair
      exact ⟨key, hpair, decide_eq_true rfl⟩
  constructor
  · intro hget
    refine ⟨index.entries_nonempty key rows hget, Table.sort_eq_positionsWhere fun rowIdx => ?_⟩
    rw [hmem, mem_pairs_of_get hget]
  · rintro ⟨hne, hsort⟩
    have hrows : ∀ rowIdx, (key, rowIdx) ∈ index.pairs ↔ rowIdx ∈ rows := by
      intro rowIdx
      rw [← hmem, ← hsort, Finset.mem_sort]
    obtain ⟨rowIdx, hrow⟩ := Finset.nonempty_iff_ne_empty.mpr hne
    obtain ⟨held, hget, -⟩ := mem_pairs.mp ((hrows rowIdx).mpr hrow)
    rw [hget, Option.some.injEq]
    ext other
    rw [← mem_pairs_of_get hget, hrows]

theorem scansAs (hconsistent : index.pairs = table.livePairs index.definition) : ScansAs table index where
  scanFrom low := by
    rw [Index.scanFrom, collect_between hconsistent]
    simp [Bound.below, Bound.above]
  scanTo high := by
    rw [Index.scanTo, collect_between hconsistent]
    simp [Bound.below, Bound.above]
  allRowIdxs := by
    rw [Index.allRowIdxs, collect_between hconsistent, Table.positionsWhere]
    simp [Bound.below, Bound.above]
  len := by
    rw [Index.len]
    congr 1
    ext key
    rw [Finmap.mem_keys, ← Finmap.lookup_isSome, Option.isSome_iff_exists, List.mem_toFinset, List.mem_map]
    constructor
    · rintro ⟨rows, hget⟩
      obtain ⟨rowIdx, hrow⟩ := Finset.nonempty_iff_ne_empty.mpr (index.entries_nonempty key rows hget)
      have hpair : (key, rowIdx) ∈ index.pairs := (mem_pairs_of_get hget).mpr hrow
      rw [hconsistent] at hpair
      obtain ⟨row, hlive, hkey⟩ := hpair
      exact ⟨(rowIdx, row), hlive, hkey⟩
    · rintro ⟨entry, hlive, rfl⟩
      have hpair : (index.definition.extractKey entry.2, entry.1) ∈ index.pairs := by
        rw [hconsistent]
        exact ⟨entry.2, hlive, rfl⟩
      obtain ⟨rows, hget, -⟩ := mem_pairs.mp hpair
      exact ⟨rows, hget⟩
  range start stop found hfound := by
    unfold Index.range at hfound
    split at hfound
    · cases hfound
    · obtain rfl := Option.some.inj hfound
      refine ⟨OrderedMap.pairwise_between _ _ _, fun key rows => ?_⟩
      rw [between, OrderedMap.mem_between, ← get_eq_some_iff hconsistent, Index.get]
      tauto
  refused start stop hrefused := by
    unfold Index.range at hrefused
    split at hrefused
    · rename_i hinverted
      rw [List.eq_nil_iff_forall_not_mem]
      intro rowIdx hrow
      obtain ⟨key, -, hbounds⟩ := Table.mem_positionsWhere.mp hrow
      exact Bound.not_between_of_inverted keyCmp hinverted key (by simpa using hbounds)
    · cases hrefused

end Index

namespace DatabaseEngine

variable {engine : DatabaseEngine}

/-- In every serial run under the guard of the indexes, the scans of an index find what scans of its table do. -/
theorem scansAs_of_serial (h : SerialReachable IndexGuard engine) {table : Table} (htable : table ∈ engine.tables)
    {index : Index} (hindex : index ∈ table.indexes) : Index.ScansAs table index := by
  obtain ⟨-, hdated, hconsistent⟩ := h.consistent
  have hrebuilt := hconsistent.rebuildIndexes_eq hdated htable
  exact Index.scansAs (Table.rebuildIndexes_eq_iff.mp hrebuilt index hindex)

theorem scansAs_of_serial_insertOne :
    ∃ table ∈ ((uniqueColumnRun ++ [insertOne]).foldl serialStep (fresh "disk")).tables, ∃ index ∈ table.indexes,
      Index.ScansAs table index ∧ index.scanFrom [.integer 1] = [0] := by
  obtain ⟨table, htables⟩ : ∃ table,
      ((uniqueColumnRun ++ [insertOne]).foldl serialStep (fresh "disk")).tables = [table] := ⟨_, rfl⟩
  have htable : table ∈ ((uniqueColumnRun ++ [insertOne]).foldl serialStep (fresh "disk")).tables := by
    rw [htables]
    exact List.mem_cons_self
  obtain ⟨index, hindexes⟩ : ∃ index, table.indexes = [index] := by
    obtain rfl := (List.singleton_inj.mp htables).symm
    exact ⟨_, rfl⟩
  have hindex : index ∈ table.indexes := by
    rw [hindexes]
    exact List.mem_cons_self
  have hscans := scansAs_of_serial insertOne_reachable htable hindex
  refine ⟨table, htable, index, hindex, hscans, ?_⟩
  rw [hscans.scanFrom]
  obtain rfl := (List.singleton_inj.mp htables).symm
  obtain rfl := (List.singleton_inj.mp hindexes).symm
  decide

end DatabaseEngine

end HelionDb
