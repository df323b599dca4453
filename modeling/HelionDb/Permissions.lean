import HelionDb.Wal

/-! The grants of `permissions.rs`. A store maps a user and a table, both in lower case, to a list of
permissions of which no two are of one kind. Granting and revoking touch one kind of one pair only, so
each kind can be followed on its own. -/

namespace HelionDb

/-- Unicode case mapping, `str::to_lowercase` and `str::to_uppercase`; on ASCII text it is the ASCII one. -/
class CaseMapping where
  toLowercase : String → String
  toUppercase : String → String
  toLowercase_ascii : ∀ text : String, (∀ c ∈ text.toList, c.toNat < 128) →
    toLowercase text = String.ofList (text.toList.map Char.toLower)
  toUppercase_ascii : ∀ text : String, (∀ c ∈ text.toList, c.toNat < 128) →
    toUppercase text = String.ofList (text.toList.map Char.toUpper)

namespace AsciiCase

/-- The case mapping that leaves everything but ASCII alone; opened where runs on given names are evaluated. -/
scoped instance mapping : CaseMapping where
  toLowercase text := String.ofList (text.toList.map Char.toLower)
  toUppercase text := String.ofList (text.toList.map Char.toUpper)
  toLowercase_ascii _ _ := rfl
  toUppercase_ascii _ _ := rfl

end AsciiCase

namespace Permission

/-- `mem::discriminant`, the kind of a permission. -/
inductive Kind where
  | select
  | insert
  | update
  | delete
  | all
  deriving DecidableEq, Repr

def kind : Permission → Kind
  | select _ => .select
  | insert _ => .insert
  | update _ => .update
  | delete => .delete
  | all => .all

/-- The columns a permission of the kind lists. -/
def listed (kind : Kind) (permission : Permission) : Option (List String) :=
  match permission with
  | select columns | insert columns | update columns => if permission.kind = kind then some columns else none
  | delete | all => none

/-- Some list of columns covers the ones asked for; the empty list covers all. -/
def covers (granted columns : List String) : Bool :=
  granted.isEmpty || columns.all fun column => granted.any fun candidate => eqIgnoreAsciiCase candidate column

/-- Whether a permission allows to use the columns in the way of a kind. -/
def allows (kind : Kind) (columns : List String) (permission : Permission) : Bool :=
  match permission with
  | all => true
  | permission =>
      match permission.listed kind with
      | some granted => covers granted columns
      | none => false

/-- What `revoke` keeps: another kind, or another list of columns. -/
def survives (revoked permission : Permission) : Bool :=
  if permission.kind = revoked.kind then
    match permission, revoked with
    | select left, select right => left != right
    | insert left, insert right => left != right
    | update left, update right => left != right
    | _, _ => false
  else true

end Permission

/-- `PermissionStore`; a pair that is not in the map has no permissions. -/
structure PermissionStore where
  grants : String × String → List Permission

/-- A permission says nothing about the uses of another kind unless it is ALL. -/
theorem Permission.allows_eq_false {permission : Permission} {kind : Kind} {columns : List String}
    (hkind : permission.kind ≠ kind) (hall : permission.kind ≠ .all) :
    permission.allows kind columns = false := by
  cases permission with
  | all => exact absurd rfl hall
  | delete => rfl
  | select granted => simp [allows, listed, hkind]
  | insert granted => simp [allows, listed, hkind]
  | update granted => simp [allows, listed, hkind]

/-- A permission of its own kind, or ALL, allows a use of no columns in particular. -/
theorem Permission.allows_nil {permission : Permission} {kind : Kind} (hkind : kind = .select ∨ kind = .insert)
    (h : permission.kind = kind ∨ permission.kind = .all) : permission.allows kind [] = true := by
  cases permission with
  | all => rfl
  | delete => rcases hkind with rfl | rfl <;> simp [Permission.kind] at h
  | select granted => rcases hkind with rfl | rfl <;> simp_all [Permission.kind, allows, listed, covers]
  | insert granted => rcases hkind with rfl | rfl <;> simp_all [Permission.kind, allows, listed, covers]
  | update granted => rcases hkind with rfl | rfl <;> simp [Permission.kind] at h

/-- A permission for some columns is one for each of them. -/
theorem Permission.allows_of_mem {permission : Permission} {kind : Kind} {columns : List String} {column : String}
    (h : permission.allows kind columns = true) (hmem : column ∈ columns) : permission.allows kind [column] = true := by
  have hcovers {granted : List String} (h : covers granted columns = true) : covers granted [column] = true := by
    rw [covers, Bool.or_eq_true, List.all_eq_true] at h ⊢
    exact h.imp id fun hall other hother => List.mem_singleton.mp hother ▸ hall column hmem
  unfold allows at h ⊢
  split at h
  · rfl
  · split at h
    · exact hcovers h
    · cases h

namespace PermissionStore

/-- `PermissionStore::new`. -/
def new : PermissionStore := { grants := fun _ => [] }

section

variable [CaseMapping] (store : PermissionStore) (username table : String)

/-- The key of a user and a table. -/
def keyOf : String × String := (CaseMapping.toLowercase username, CaseMapping.toLowercase table)

/-- The permissions of a user on a table. -/
def held : List Permission := store.grants (keyOf username table)

/-- `PermissionStore::grant`: the permission replaces one of its kind. -/
def grant (permission : Permission) : PermissionStore where
  grants := Function.update store.grants (keyOf username table)
    ((store.held username table).filter (fun other => other.kind ≠ permission.kind) ++ [permission])

/-- `PermissionStore::revoke`. -/
def revoke (permission : Permission) : PermissionStore where
  grants := Function.update store.grants (keyOf username table)
    ((store.held username table).filter permission.survives)

/-- Whether some permission of a user on a table allows a use of columns. -/
def can (kind : Permission.Kind) (columns : List String) : Bool :=
  (store.held username table).any (Permission.allows kind columns)

/-- `PermissionStore::can_select`. -/
def canSelect (columns : List String) : Bool := store.can username table .select columns

/-- `PermissionStore::can_insert`. -/
def canInsert (columns : List String) : Bool := store.can username table .insert columns

/-- `PermissionStore::can_update`. -/
def canUpdate (columns : List String) : Bool := store.can username table .update columns

/-- `PermissionStore::can_delete`. -/
def canDelete : Bool :=
  (store.held username table).any fun permission => permission.kind == .all || permission.kind == .delete

/-- `PermissionStore::remove_user`. -/
def removeUser : PermissionStore where
  grants key := if key.1 = CaseMapping.toLowercase username then [] else store.grants key

/-- `PermissionStore::remove_table`. -/
def removeTable : PermissionStore where
  grants key := if key.2 = CaseMapping.toLowercase table then [] else store.grants key

end

/-! ### One kind at a time -/

/-- The permissions of one kind under a key. -/
def ofKind (store : PermissionStore) (kind : Permission.Kind) (key : String × String) : List Permission :=
  (store.grants key).filter fun permission => permission.kind == kind

section

variable [CaseMapping] {store : PermissionStore} {username table : String} {kind : Permission.Kind}

/-- An answer is read off the permissions of its kind and the ALL permissions. -/
theorem can_eq (store : PermissionStore) (username table : String) (kind : Permission.Kind) (columns : List String) :
    store.can username table kind columns =
      ((store.ofKind kind (keyOf username table)).any (Permission.allows kind columns) ||
        (store.ofKind .all (keyOf username table)).any (Permission.allows kind columns)) := by
  rw [can, held, ofKind, ofKind, Bool.eq_iff_iff, Bool.or_eq_true, List.any_eq_true, List.any_eq_true,
    List.any_eq_true]
  simp only [List.mem_filter, beq_iff_eq]
  constructor
  · rintro ⟨permission, hmem, hallows⟩
    by_cases hkind : permission.kind = kind
    · exact .inl ⟨permission, ⟨hmem, hkind⟩, hallows⟩
    · by_cases hall : permission.kind = .all
      · exact .inr ⟨permission, ⟨hmem, hall⟩, hallows⟩
      · rw [Permission.allows_eq_false hkind hall] at hallows
        cases hallows
  · rintro (⟨permission, ⟨hmem, -⟩, hallows⟩ | ⟨permission, ⟨hmem, -⟩, hallows⟩)
    · exact ⟨permission, hmem, hallows⟩
    · exact ⟨permission, hmem, hallows⟩

/-- Nobody can do anything in the way of a kind without a permission of the kind or ALL. -/
theorem can_eq_false (hkind : store.ofKind kind (keyOf username table) = [])
    (hall : store.ofKind .all (keyOf username table) = []) (columns : List String) :
    store.can username table kind columns = false := by
  rw [can_eq, hkind, hall]
  rfl

/-- Who may use some columns may use each of them. -/
theorem can_of_mem {columns : List String} {column : String} (h : store.can username table kind columns = true)
    (hmem : column ∈ columns) : store.can username table kind [column] = true := by
  obtain ⟨permission, hheld, hallows⟩ := List.any_eq_true.mp h
  exact List.any_eq_true.mpr ⟨permission, hheld, Permission.allows_of_mem hallows hmem⟩

theorem ofKind_grant (store : PermissionStore) (username table : String) (permission : Permission)
    (kind : Permission.Kind) (key : String × String) :
    (store.grant username table permission).ofKind kind key =
      if key = keyOf username table ∧ permission.kind = kind then [permission] else store.ofKind kind key := by
  unfold ofKind grant
  dsimp only
  by_cases hkey : key = keyOf username table
  · subst hkey
    rw [Function.update_self, List.filter_append, List.filter_filter, held]
    by_cases hkind : permission.kind = kind
    · subst hkind
      rw [if_pos ⟨rfl, rfl⟩, List.filter_cons_of_pos (by simp), List.filter_nil]
      refine (congrArg (· ++ [permission]) (List.filter_eq_nil_iff.mpr fun other _ => ?_)).trans (List.nil_append _)
      simp
    · rw [if_neg fun h => hkind h.2, List.filter_cons_of_neg (by simpa using hkind), List.filter_nil,
        List.append_nil]
      refine List.filter_congr fun other _ => ?_
      by_cases hother : other.kind = kind
      · subst hother
        simp [Ne.symm hkind]
      · simp [hother]
  · rw [Function.update_of_ne hkey, if_neg fun h => hkey h.1]

theorem ofKind_revoke (store : PermissionStore) (username table : String) (permission : Permission)
    (kind : Permission.Kind) (key : String × String) :
    (store.revoke username table permission).ofKind kind key =
      if key = keyOf username table then (store.ofKind kind key).filter permission.survives
      else store.ofKind kind key := by
  unfold ofKind revoke
  dsimp only
  split
  · rename_i hkey
    subst hkey
    rw [Function.update_self, held]
    exact List.filter_comm _ _ _
  · rename_i hkey
    rw [Function.update_of_ne hkey]

theorem ofKind_removeUser (store : PermissionStore) (username : String) (kind : Permission.Kind)
    (key : String × String) :
    (store.removeUser username).ofKind kind key =
      if key.1 = CaseMapping.toLowercase username then [] else store.ofKind kind key := by
  unfold ofKind removeUser
  dsimp only
  split
  · rfl
  · rfl

theorem ofKind_removeTable (store : PermissionStore) (table : String) (kind : Permission.Kind)
    (key : String × String) :
    (store.removeTable table).ofKind kind key =
      if key.2 = CaseMapping.toLowercase table then [] else store.ofKind kind key := by
  unfold ofKind removeTable
  dsimp only
  split
  · rfl
  · rfl

end

end PermissionStore

end HelionDb
