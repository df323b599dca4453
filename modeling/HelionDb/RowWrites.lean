import HelionDb.Representatives
import HelionDb.Structured

/-! Rows written position by position. The planner of INSERT and UPDATE and the structured requests each place values
at positions, one after another; what a position holds in the end is the last value placed there. -/

namespace HelionDb

section

variable {ε α β : Type}

/-- A traversal succeeds with the results of its items, one each. -/
theorem mapM_ok_iff_forall₂ {f : α → Except ε β} {items : List α} {results : List β} :
    items.mapM f = .ok results ↔ List.Forall₂ (fun item result => f item = .ok result) items results := by
  induction items generalizing results with
  | nil =>
      rw [List.mapM_nil, List.forall₂_nil_left_iff]
      exact ⟨fun h => (Except.ok.inj h).symm, fun h => by rw [h]; rfl⟩
  | cons item rest ih =>
      rw [List.mapM_cons, Loop.bind_ok_iff, List.forall₂_cons_left_iff]
      constructor
      · rintro ⟨first, hfirst, h⟩
        obtain ⟨others, hothers, h⟩ := Loop.bind_ok_iff.mp h
        exact ⟨first, others, hfirst, ih.mp hothers, (Except.ok.inj h).symm⟩
      · rintro ⟨first, others, hfirst, hothers, rfl⟩
        exact ⟨first, hfirst, Loop.bind_ok_iff.mpr ⟨others, ih.mpr hothers, rfl⟩⟩

/-- Every item of a traversal that succeeds has a result. -/
theorem exists_of_mem_mapM_ok {f : α → Except ε β} {items : List α} {results : List β}
    (hok : items.mapM f = .ok results) {item : α} (hitem : item ∈ items) : ∃ result, f item = .ok result := by
  obtain ⟨result, -, hresult⟩ := exists_of_mem_forall₂ (mapM_ok_iff_forall₂.mp hok) hitem
  exact ⟨result, hresult⟩

/-- The last value that a list of assignments gives a position. -/
def lastAt (idx : Nat) (assignments : List (Nat × β)) : Option β :=
  (assignments.reverse.find? fun assignment => assignment.1 = idx).map Prod.snd

@[simp] theorem lastAt_nil (idx : Nat) : lastAt idx ([] : List (Nat × β)) = none := rfl

theorem lastAt_cons (idx : Nat) (first : Nat × β) (rest : List (Nat × β)) :
    lastAt idx (first :: rest) = (lastAt idx rest).or (if first.1 = idx then some first.2 else none) := by
  rw [lastAt, lastAt, List.reverse_cons, List.find?_append, Option.map_or, List.find?_singleton]
  by_cases hfirst : first.1 = idx <;> simp [hfirst]

/-- Assignments related one by one give a position related values. -/
theorem lastAt_rel {P : Nat → α → β → Prop} {given : List (Nat × α)} {placed : List (Nat × β)}
    (h : List.Forall₂ (fun source target => source.1 = target.1 ∧ P target.1 source.2 target.2) given placed)
    (idx : Nat) : Option.Rel (P idx) (lastAt idx given) (lastAt idx placed) := by
  induction h with
  | nil => exact .none
  | @cons source target sources targets hfirst _ ih =>
      obtain ⟨hsame, hrel⟩ := hfirst
      rw [lastAt_cons, lastAt_cons, hsame]
      revert ih
      cases lastAt idx sources <;> cases lastAt idx targets <;> intro ih
      · by_cases hidx : target.1 = idx
        · rw [Option.none_or, Option.none_or, if_pos hidx, if_pos hidx]
          exact .some (hidx ▸ hrel)
        · rw [Option.none_or, Option.none_or, if_neg hidx, if_neg hidx]
          exact .none
      · cases ih
      · cases ih
      · exact ih

end

/-- Place values at their positions, one after another. -/
def writeAll (values : List Datum) (assignments : List (Nat × Datum)) : List Datum :=
  assignments.foldl (fun values assignment => values.set assignment.1 assignment.2) values

@[simp] theorem length_writeAll (values : List Datum) (assignments : List (Nat × Datum)) :
    (writeAll values assignments).length = values.length := by
  induction assignments generalizing values with
  | nil => rfl
  | cons first rest ih => exact (ih _).trans List.length_set

/-- A position holds the last value placed there, or what it held. -/
theorem getElem?_writeAll (values : List Datum) (assignments : List (Nat × Datum)) (idx : Nat) :
    (writeAll values assignments)[idx]? = values[idx]?.map fun old => (lastAt idx assignments).getD old := by
  induction assignments generalizing values with
  | nil => simp [writeAll]
  | cons first rest ih =>
      have hstep : writeAll values (first :: rest) = writeAll (values.set first.1 first.2) rest := rfl
      rw [hstep, ih, lastAt_cons, List.getElem?_set]
      by_cases hfirst : first.1 = idx
      · subst hfirst
        rw [if_pos rfl, if_pos rfl]
        by_cases hlt : first.1 < values.length
        · rw [if_pos hlt, List.getElem?_eq_getElem hlt]
          cases lastAt first.1 rest <;> rfl
        · rw [if_neg hlt, List.getElem?_eq_none (not_lt.mp hlt)]
          rfl
      · rw [if_neg hfirst, if_neg hfirst, Option.or_none]

/-- Placing values as they are worked out is working them all out and then placing them. -/
theorem foldlM_place {ε α : Type} (place : α → Except ε (Nat × Datum)) (items : List α) (values : List Datum) :
    items.foldlM (fun values item => do
      let assignment ← place item
      return values.set assignment.1 assignment.2) values =
      (items.mapM place).map (writeAll values) := by
  induction items generalizing values with
  | nil => rfl
  | cons item rest ih =>
      rw [List.foldlM_cons, List.mapM_cons]
      cases hitem : place item with
      | error err => rfl
      | ok assignment =>
          refine (ih _).trans ?_
          cases rest.mapM place <;> simp only [bind, Except.bind] <;> rfl

/-- Where every position exists, the assignments of an UPDATE go through. -/
theorem eq_writeAll_of_assign {values changed : List Datum} {assignments : List (Nat × Datum)}
    (h : assign values assignments = some changed) : changed = writeAll values assignments := by
  induction assignments generalizing values with
  | nil => exact (Option.some.inj h).symm
  | cons first rest ih =>
      obtain ⟨idx, value⟩ := first
      rw [assign] at h
      split at h
      · exact ih h
      · cases h

/-! ### The rows of plans -/

/-- The assignment that a literal of an INSERT makes. -/
def placeLiteral (table : Table) (given : Nat × Datum) : Except HelionError (Nat × Datum) :=
  return (given.1, ← coerceTo table given.1 given.2)

theorem planInsertRow_eq (table : Table) (colIndices : List Nat) (rowValues : List Datum) :
    planInsertRow table colIndices rowValues = do
      let placed ← (colIndices.zip rowValues).mapM (placeLiteral table)
      let row : Row := { values := writeAll (List.replicate table.columns.length .null) placed }
      table.validateRow row
      return row := by
  have hfold := foldlM_place (placeLiteral table) (colIndices.zip rowValues)
    (List.replicate table.columns.length .null)
  have hstep (fullRow : List Datum) (given : Nat × Datum) :
      (coerceTo table given.1 given.2).map (fullRow.set given.1) = do
        let assignment ← placeLiteral table given
        return fullRow.set assignment.1 assignment.2 := by
    rw [placeLiteral]
    cases coerceTo table given.1 given.2 <;> rfl
  simp only [← hstep] at hfold
  rw [planInsertRow]
  refine (congrArg (fun written => written >>= _) hfold).trans ?_
  cases (colIndices.zip rowValues).mapM (placeLiteral table) <;> rfl

/-- The assignment that an entry of the data of a structured request makes. -/
def placeJson (table : Table) (fromTable : String) (entry : String × Json) : Except HelionError (Nat × Datum) := do
  let idx ← requireColumn table fromTable entry.1
  return (idx, entry.2.toColumn table idx)

theorem setValues_eq (table : Table) (input : UpdateInput) :
    setValues table input = input.data.mapM (placeJson table input.fromTable) := rfl

theorem createRow_eq (table : Table) (input : CreateInput) :
    createRow table input = (input.data.mapM (placeJson table input.fromTable)).map fun placed =>
      { values := writeAll (List.replicate table.columns.length .null) placed } := by
  have hfold := foldlM_place (placeJson table input.fromTable) input.data
    (List.replicate table.columns.length .null)
  have hstep (values : List Datum) (entry : String × Json) :
      (requireColumn table input.fromTable entry.1).map (fun idx => values.set idx (entry.2.toColumn table idx)) = do
        let assignment ← placeJson table input.fromTable entry
        return values.set assignment.1 assignment.2 := by
    rw [placeJson]
    cases requireColumn table input.fromTable entry.1 <;> rfl
  simp only [← hstep] at hfold
  rw [createRow]
  refine (congrArg (fun written => written >>= _) hfold).trans ?_
  cases input.data.mapM (placeJson table input.fromTable) <;> rfl

end HelionDb
