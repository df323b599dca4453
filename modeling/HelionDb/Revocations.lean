import HelionDb.Permissions

/-! What REVOKE takes away. A grant of columns is one list, and a REVOKE deletes it where it names the same list and
leaves it alone otherwise, so the revoked columns are out of reach exactly where the lists are the same or have no column
in common. -/

namespace HelionDb

/-- The permissions that are granted by columns. -/
inductive ColumnKind where
  | select
  | insert
  | update
  deriving DecidableEq, Repr

namespace ColumnKind

def kind : ColumnKind → Permission.Kind
  | select => .select
  | insert => .insert
  | update => .update

/-- The permission for a list of columns, the empty list for all. -/
def permission : ColumnKind → List String → Permission
  | select, columns => .select columns
  | insert, columns => .insert columns
  | update, columns => .update columns

end ColumnKind

namespace PermissionStore

section

variable [CaseMapping]

/-- A REVOKE of columns does what it says: none of the columns can be used unless the user holds ALL, the others can be
used as before, and no other user, table or kind of permission changes. -/
structure RevokesColumns (store : PermissionStore) (username table : String) (kind : ColumnKind) (columns : List String) :
    Prop where
  removed : Permission.all ∉ store.held username table → ∀ column, Permission.covers columns [column] = true →
    (store.revoke username table (kind.permission columns)).can username table kind.kind [column] = false
  kept : ∀ column, Permission.covers columns [column] = false →
    (store.revoke username table (kind.permission columns)).can username table kind.kind [column] =
      store.can username table kind.kind [column]
  others : ∀ otherKind key, (key ≠ keyOf username table ∨ otherKind ≠ kind.kind) →
    (store.revoke username table (kind.permission columns)).ofKind otherKind key = store.ofKind otherKind key

/-- Two lists of columns share none; the empty list has all. -/
def Disjoint (granted columns : List String) : Prop :=
  granted ≠ [] ∧ columns ≠ [] ∧ ∀ left ∈ granted, ∀ right ∈ columns, eqIgnoreAsciiCase left right = false

end

end PermissionStore

/-! ### Lists of columns -/

namespace Permission

theorem covers_singleton_iff {granted : List String} {column : String} :
    covers granted [column] = true ↔ granted = [] ∨ ∃ left ∈ granted, eqIgnoreAsciiCase left column = true := by
  rw [covers, Bool.or_eq_true, List.isEmpty_iff, List.all_cons, List.all_nil, Bool.and_true, List.any_eq_true]

theorem covers_of_mem {granted : List String} {column : String} (h : column ∈ granted) :
    covers granted [column] = true :=
  covers_singleton_iff.mpr (.inr ⟨column, h, eqIgnoreAsciiCase_refl column⟩)

theorem eqIgnoreAsciiCase_congr {left middle right : String} (hleft : eqIgnoreAsciiCase left right = true)
    (hmiddle : eqIgnoreAsciiCase middle right = true) : eqIgnoreAsciiCase left middle = true :=
  eqIgnoreAsciiCase_eq.mpr ((eqIgnoreAsciiCase_eq.mp hleft).trans (eqIgnoreAsciiCase_eq.mp hmiddle).symm)

/-- Lists that share no column cover no column in common, and only those. -/
theorem disjoint_iff {granted columns : List String} :
    PermissionStore.Disjoint granted columns ↔
      ∀ column, covers columns [column] = true → covers granted [column] = false := by
  constructor
  · rintro ⟨hgranted, hcolumns, hapart⟩ column hcovers
    apply Bool.eq_false_iff.mpr
    intro hboth
    obtain ⟨right, hright, hsame⟩ := (covers_singleton_iff.mp hcovers).resolve_left hcolumns
    obtain ⟨left, hleft, hsame'⟩ := (covers_singleton_iff.mp hboth).resolve_left hgranted
    have hequal := eqIgnoreAsciiCase_congr hsame' hsame
    rw [hapart left hleft right hright] at hequal
    cases hequal
  · intro h
    have hgranted : granted ≠ [] := by
      rintro rfl
      cases columns with
      | nil => cases h "" rfl
      | cons column rest => cases h column (covers_of_mem List.mem_cons_self)
    have hcolumns : columns ≠ [] := by
      rintro rfl
      obtain ⟨column, hcolumn⟩ := List.exists_mem_of_ne_nil granted hgranted
      have hcovers := h column rfl
      rw [covers_of_mem hcolumn] at hcovers
      cases hcovers
    refine ⟨hgranted, hcolumns, fun left hleft right hright => ?_⟩
    apply Bool.eq_false_iff.mpr
    intro hsame
    have hcovers := h right (covers_of_mem hright)
    rw [covers_singleton_iff.mpr (.inr ⟨left, hleft, hsame⟩)] at hcovers
    cases hcovers

/-- A permission of the kind covers its columns. -/
theorem allows_permission (kind : ColumnKind) (granted columns : List String) :
    allows kind.kind columns (kind.permission granted) = covers granted columns := by
  cases kind <;> rfl

/-- A REVOKE deletes the permission with the same list of columns. -/
theorem survives_permission_iff (kind : ColumnKind) (columns : List String) (permission : Permission) :
    survives (kind.permission columns) permission = true ↔ permission ≠ kind.permission columns := by
  cases kind <;> cases permission <;> simp [survives, ColumnKind.permission, Permission.kind]

theorem eq_permission_of_kind {kind : ColumnKind} {permission : Permission} (h : permission.kind = kind.kind) :
    ∃ columns, permission = kind.permission columns := by
  cases kind <;> cases permission <;> cases h <;> exact ⟨_, rfl⟩

end Permission

namespace PermissionStore

section

variable [CaseMapping] {store : PermissionStore} {username table : String} {kind : ColumnKind} {columns : List String}

theorem mem_held_revoke {permission : Permission} :
    permission ∈ (store.revoke username table (kind.permission columns)).held username table ↔
      permission ∈ store.held username table ∧ permission ≠ kind.permission columns := by
  unfold held revoke
  dsimp only
  rw [Function.update_self, List.mem_filter, Permission.survives_permission_iff]
  rfl

/-- Who may use a column holds ALL or a list that covers it. -/
theorem can_column_iff {column : String} :
    store.can username table kind.kind [column] = true ↔
      .all ∈ store.held username table ∨
        ∃ granted, kind.permission granted ∈ store.held username table ∧ Permission.covers granted [column] = true := by
  rw [can, List.any_eq_true]
  constructor
  · rintro ⟨permission, hheld, hallows⟩
    by_cases hkind : permission.kind = kind.kind
    · obtain ⟨granted, rfl⟩ := Permission.eq_permission_of_kind hkind
      rw [Permission.allows_permission] at hallows
      exact .inr ⟨granted, hheld, hallows⟩
    · by_cases hall : permission.kind = .all
      · cases permission <;> cases hall
        exact .inl hheld
      · rw [Permission.allows_eq_false hkind hall] at hallows
        cases hallows
  · rintro (hall | ⟨granted, hheld, hcovers⟩)
    · exact ⟨.all, hall, rfl⟩
    · exact ⟨kind.permission granted, hheld, (Permission.allows_permission kind granted [column]).trans hcovers⟩

/-- A REVOKE leaves the other users, tables and kinds alone. -/
theorem ofKind_revoke_of_ne {otherKind : Permission.Kind} {key : String × String}
    (hother : key ≠ keyOf username table ∨ otherKind ≠ kind.kind) :
    (store.revoke username table (kind.permission columns)).ofKind otherKind key = store.ofKind otherKind key := by
  rw [ofKind_revoke]
  split
  · rename_i hkey
    have hkind := hother.resolve_left fun hne => hne hkey
    apply List.filter_eq_self.mpr
    intro permission hmem
    rw [Permission.survives_permission_iff]
    rintro rfl
    apply hkind
    have hsame := (List.mem_filter.mp hmem).2
    rw [beq_iff_eq] at hsame
    rw [← hsame]
    cases kind <;> rfl
  · rfl

/-- What no list but the revoked one covers is out of reach. -/
theorem can_revoke_eq_false (hall : .all ∉ store.held username table) {column : String}
    (hcovers : Permission.covers columns [column] = true)
    (hlists : ∀ granted, kind.permission granted ∈ store.held username table → granted = columns ∨ Disjoint granted columns) :
    (store.revoke username table (kind.permission columns)).can username table kind.kind [column] = false := by
  apply Bool.eq_false_iff.mpr
  intro hcan
  rcases can_column_iff.mp hcan with hall' | ⟨granted, hheld, hgranted⟩
  · exact hall (mem_held_revoke.mp hall').1
  · obtain ⟨hheld, hne⟩ := mem_held_revoke.mp hheld
    rcases hlists granted hheld with rfl | hdisjoint
    · exact hne rfl
    · rw [Permission.disjoint_iff.mp hdisjoint column hcovers] at hgranted
      cases hgranted

/-- What the revoked list does not cover can be used as before. -/
theorem can_revoke_of_not_covers {column : String} (hcovers : Permission.covers columns [column] = false) :
    (store.revoke username table (kind.permission columns)).can username table kind.kind [column] =
      store.can username table kind.kind [column] := by
  rw [Bool.eq_iff_iff, can_column_iff, can_column_iff]
  constructor
  · rintro (hall | ⟨granted, hheld, hgranted⟩)
    · exact .inl (mem_held_revoke.mp hall).1
    · exact .inr ⟨granted, (mem_held_revoke.mp hheld).1, hgranted⟩
  · rintro (hall | ⟨granted, hheld, hgranted⟩)
    · refine .inl (mem_held_revoke.mpr ⟨hall, ?_⟩)
      cases kind <;> nofun
    · refine .inr ⟨granted, mem_held_revoke.mpr ⟨hheld, fun heq => ?_⟩, hgranted⟩
      have hlists : granted = columns := by cases kind <;> cases heq <;> rfl
      rw [hlists, hcovers] at hgranted
      cases hgranted

/-- A REVOKE of columns does what it says exactly if the user holds ALL, or each list of columns that the user holds of
the kind is the revoked one or shares no column with it. -/
theorem revokesColumns_iff (store : PermissionStore) (username table : String) (kind : ColumnKind)
    (columns : List String) :
    store.RevokesColumns username table kind columns ↔
      .all ∈ store.held username table ∨
        ∀ granted, kind.permission granted ∈ store.held username table → granted = columns ∨ Disjoint granted columns := by
  constructor
  · intro h
    by_cases hall : Permission.all ∈ store.held username table
    · exact .inl hall
    refine .inr fun granted hheld => ?_
    by_cases hsame : granted = columns
    · exact .inl hsame
    right
    apply Permission.disjoint_iff.mpr
    intro column hcovers
    apply Bool.eq_false_iff.mpr
    intro hgranted
    have hstays : kind.permission granted ∈
        (store.revoke username table (kind.permission columns)).held username table := by
      refine mem_held_revoke.mpr ⟨hheld, fun heq => hsame ?_⟩
      cases kind <;> cases heq <;> rfl
    have hcan := can_column_iff.mpr (.inr ⟨granted, hstays, hgranted⟩)
    rw [h.removed hall column hcovers] at hcan
    cases hcan
  · intro h
    refine ⟨fun hall column hcovers => ?_, fun column => can_revoke_of_not_covers, fun otherKind key => ofKind_revoke_of_ne⟩
    exact can_revoke_eq_false hall hcovers (h.resolve_left hall)

end

section Samples

open AsciiCase

/-- A user who may select two columns. -/
def twoColumns : PermissionStore := PermissionStore.new.grant "ann" "item" (.select ["id", "name"])

theorem not_revokesColumns_of_covers {columns : List String} (hcovers : Permission.covers columns ["id"] = true)
    (hstays : (twoColumns.revoke "ann" "item" (.select columns)).canSelect "ann" "item" ["id"] = true) :
    ¬ twoColumns.RevokesColumns "ann" "item" .select columns := by
  intro h
  have hall : Permission.all ∉ twoColumns.held "ann" "item" := by decide
  have hremoved : (twoColumns.revoke "ann" "item" (.select columns)).canSelect "ann" "item" ["id"] = false :=
    h.removed hall "id" hcovers
  rw [hstays] at hremoved
  cases hremoved

/-- Behind GRANT SELECT (id, name) none of REVOKE SELECT, REVOKE SELECT (name, id), REVOKE SELECT (id) and REVOKE SELECT
(ID, name) takes the columns away. -/
theorem not_revokesColumns :
    ¬ twoColumns.RevokesColumns "ann" "item" .select [] ∧
      ¬ twoColumns.RevokesColumns "ann" "item" .select ["name", "id"] ∧
      ¬ twoColumns.RevokesColumns "ann" "item" .select ["id"] ∧
      ¬ twoColumns.RevokesColumns "ann" "item" .select ["ID", "name"] :=
  ⟨not_revokesColumns_of_covers (by decide) (by decide), not_revokesColumns_of_covers (by decide) (by decide),
    not_revokesColumns_of_covers (by decide) (by decide), not_revokesColumns_of_covers (by decide) (by decide)⟩

end Samples

end PermissionStore

end HelionDb
