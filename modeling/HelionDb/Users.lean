import HelionDb.KeyedList
import HelionDb.Types
import Mathlib.Data.List.Find

/-! The users of `users.rs`. A user name is looked up without regard to ASCII case, and a store never
holds two users whose names differ in case only. Hashing and verification of passwords are parameters,
and so is the salt that each hash draws. -/

namespace HelionDb

/-- The `argon2` crate: a hash under a salt, and the check of a password against a stored hash, which
also fails when the hash does not parse. -/
structure Argon2 where
  hashPassword : (password salt : String) → Except String String
  verifyPassword : (passwordHash password : String) → Bool

/-- Hashing and verification agree: a hash accepts its own password. -/
def Argon2.Accepts (argon2 : Argon2) : Prop :=
  ∀ password salt hash, argon2.hashPassword password salt = .ok hash → argon2.verifyPassword hash password = true

/-- A stand-in that keeps the password readable in the hash; a salt is text without a separator. -/
def Argon2.plain : Argon2 where
  hashPassword password salt :=
    if '$' ∈ salt.toList then .error "salt invalid" else .ok (String.ofList (salt.toList ++ '$' :: password.toList))
  verifyPassword hash password := (hash.toList.dropWhile (· != '$')).drop 1 == password.toList

theorem Argon2.plain_accepts : Argon2.plain.Accepts := by
  intro password salt hash hhash
  simp only [plain] at hhash ⊢
  split at hhash
  · cases hhash
  · rename_i hsalt
    obtain rfl := Except.ok.inj hhash
    rw [String.toList_ofList, List.dropWhile_append_of_pos]
    · simp
    · intro c hc
      have hne : c ≠ '$' := ne_of_mem_of_not_mem hc hsalt
      simpa using hne

structure User where
  username : String
  passwordHash : String
  deriving DecidableEq, Repr

namespace User

/-- The hash a password gets, with the error of the crate rendered. -/
def hashOf (argon2 : Argon2) (password salt : String) : Except HelionError String :=
  match argon2.hashPassword password salt with
  | .error err => .error (.internal ("Password hashing error: " ++ err))
  | .ok hash => .ok hash

/-- `User::new`. -/
def new (argon2 : Argon2) (username password salt : String) : Except HelionError User :=
  (hashOf argon2 password salt).map fun hash => { username, passwordHash := hash }

/-- `User::verify_password`. -/
def verifyPassword (argon2 : Argon2) (user : User) (password : String) : Bool :=
  argon2.verifyPassword user.passwordHash password

/-- What `User::set_password` leaves once the hash is computed. -/
def withHash (user : User) (hash : String) : User := { user with passwordHash := hash }

/-- The name a store tells users apart by. -/
def key (user : User) : List Char := lowerName user.username

theorem key_withHash (hash : String) (user : User) : (user.withHash hash).key = user.key := rfl

end User

/-- `UserStore`: no two names differ in ASCII case only. -/
structure UserStore where
  users : List User
  distinct : (users.map User.key).Nodup

namespace UserStore

variable {store next : UserStore} {username other : String} {user : User}

@[ext] theorem ext {left right : UserStore} (h : left.users = right.users) : left = right := by
  cases left
  cases right
  cases h
  rfl

instance : DecidableEq UserStore := fun left right => decidable_of_iff (left.users = right.users) ⟨ext, congrArg _⟩

/-- `UserStore::new`. -/
def new : UserStore := { users := [], distinct := List.nodup_nil }

/-- `UserStore::get_user`. -/
def getUser (store : UserStore) (username : String) : Option User :=
  store.users.find? fun user => eqIgnoreAsciiCase user.username username

/-- `UserStore::user_exists`. -/
def userExists (store : UserStore) (username : String) : Bool :=
  store.users.any fun user => eqIgnoreAsciiCase user.username username

theorem getUser_eq (store : UserStore) (username : String) :
    store.getUser username = KeyedList.lookup User.key (lowerName username) store.users := by
  unfold getUser KeyedList.lookup
  congr 1
  funext user
  exact Bool.eq_iff_iff.mpr (eqIgnoreAsciiCase_eq.trans decide_eq_true_iff.symm)

theorem userExists_eq (store : UserStore) (username : String) :
    store.userExists username = (store.getUser username).isSome := by
  rw [Bool.eq_iff_iff, userExists, List.any_eq_true]
  exact List.find?_isSome.symm

theorem userExists_iff : store.userExists username = true ↔ ∃ user ∈ store.users, user.key = lowerName username := by
  rw [userExists, List.any_eq_true]
  exact exists_congr fun user => and_congr_right fun _ => eqIgnoreAsciiCase_eq

theorem getUser_eq_some : store.getUser username = some user ↔ user ∈ store.users ∧ user.key = lowerName username :=
  getUser_eq store username ▸ KeyedList.lookup_eq_some_iff store.distinct

/-- `UserStore::insert_user`. -/
def insertUser (store : UserStore) (user : User) : Except HelionError UserStore :=
  if hexists : store.userExists user.username then
    .error (.internal ("User '" ++ user.username ++ "' already exists"))
  else
    .ok
      { users := store.users ++ [user]
        distinct := by
          rw [List.map_append, List.map_singleton]
          refine store.distinct.append (List.nodup_singleton _) (List.disjoint_singleton.mpr fun hmem => ?_)
          obtain ⟨held, hheld, hkey⟩ := List.mem_map.mp hmem
          exact hexists (userExists_iff.mpr ⟨held, hheld, hkey⟩) }

/-- `UserStore::create_user`. -/
def createUser (argon2 : Argon2) (store : UserStore) (username password salt : String) : Except HelionError UserStore :=
  if store.userExists username then .error (.internal ("User '" ++ username ++ "' already exists"))
  else
    match User.new argon2 username password salt with
    | .error err => .error err
    | .ok user => store.insertUser user

/-- `UserStore::drop_user`. -/
def dropUser (store : UserStore) (username : String) : Except HelionError UserStore :=
  let kept := store.users.filter fun user => !eqIgnoreAsciiCase user.username username
  if kept.length = store.users.length then .error (.internal ("User '" ++ username ++ "' not found"))
  else .ok { users := kept, distinct := store.distinct.sublist (List.filter_sublist.map _) }

/-- `get_user_mut` followed by an assignment to the hash. -/
def setHash (store : UserStore) (username hash : String) : UserStore where
  users := KeyedList.update User.key (lowerName username) (User.withHash · hash) store.users
  distinct := by
    rw [KeyedList.map_update_of_keeps (User.key_withHash hash)]
    exact store.distinct

/-- `UserStore::update_password`. -/
def updatePassword (argon2 : Argon2) (store : UserStore) (username newPassword salt : String) :
    Except HelionError UserStore :=
  match store.getUser username with
  | none => .error (.internal ("User '" ++ username ++ "' not found"))
  | some _ => (User.hashOf argon2 newPassword salt).map fun hash => store.setHash username hash

/-- `UserStore::verify_login`. -/
def verifyLogin (argon2 : Argon2) (store : UserStore) (username password : String) : Bool :=
  match store.getUser username with
  | none => false
  | some user => user.verifyPassword argon2 password

/-- `UserStore::user_count`. -/
def userCount (store : UserStore) : Nat := store.users.length

/-! ### What the operations do to a name -/

theorem insertUser_eq_ok :
    store.insertUser user = .ok next ↔ store.userExists user.username = false ∧ next.users = store.users ++ [user] := by
  unfold insertUser
  split
  · rename_i hexists
    simp [hexists]
  · rename_i hexists
    simp only [Except.ok.injEq, Bool.not_eq_true] at hexists ⊢
    exact ⟨fun h => h ▸ ⟨hexists, rfl⟩, fun h => ext h.2.symm⟩

theorem createUser_eq_ok {argon2 : Argon2} {password salt : String} :
    store.createUser argon2 username password salt = .ok next ↔ store.userExists username = false ∧
      ∃ hash, argon2.hashPassword password salt = .ok hash ∧
        next.users = store.users ++ [{ username, passwordHash := hash }] := by
  unfold createUser User.new User.hashOf
  split
  · rename_i hexists
    simp [hexists]
  · rename_i hexists
    cases hhash : argon2.hashPassword password salt with
    | error err => simp [Except.map]
    | ok hash =>
        simp only [Except.map, insertUser_eq_ok]
        simp

theorem dropUser_eq_ok :
    store.dropUser username = .ok next ↔ store.userExists username = true ∧
      next.users = store.users.filter fun user => !eqIgnoreAsciiCase user.username username := by
  have hkeeps : (store.users.filter fun user => !eqIgnoreAsciiCase user.username username).length =
      store.users.length ↔ store.userExists username = false := by
    rw [List.length_filter_eq_length_iff, userExists, List.any_eq_false]
    simp
  unfold dropUser
  dsimp only
  split
  · rename_i hsame
    simp [hkeeps.mp hsame]
  · rename_i hsame
    rw [hkeeps, Bool.not_eq_false] at hsame
    simp only [hsame, Except.ok.injEq, true_and]
    exact ⟨fun h => h ▸ rfl, fun h => ext h.symm⟩

theorem updatePassword_eq_ok {argon2 : Argon2} {password salt : String} :
    store.updatePassword argon2 username password salt = .ok next ↔ store.userExists username = true ∧
      ∃ hash, argon2.hashPassword password salt = .ok hash ∧ next = store.setHash username hash := by
  unfold updatePassword User.hashOf
  rw [userExists_eq]
  cases store.getUser username with
  | none => simp
  | some user =>
      cases argon2.hashPassword password salt with
      | error err => simp [Except.map]
      | ok hash => simp [Except.map, eq_comm]

theorem exists_createUser {argon2 : Argon2} {password salt hash : String} (hfresh : store.userExists username = false)
    (hhash : argon2.hashPassword password salt = .ok hash) :
    ∃ next, store.createUser argon2 username password salt = .ok next := by
  simp [createUser, hfresh, User.new, User.hashOf, hhash, Except.map, insertUser]

theorem exists_dropUser (hexists : store.userExists username = true) : ∃ next, store.dropUser username = .ok next :=
  ⟨{ users := store.users.filter fun user => !eqIgnoreAsciiCase user.username username
     distinct := store.distinct.sublist (List.filter_sublist.map _) }, dropUser_eq_ok.mpr ⟨hexists, rfl⟩⟩

/-- A user that is added answers to its name, and to no other. -/
theorem getUser_of_added (hfresh : store.userExists user.username = false) (hadded : next.users = store.users ++ [user])
    (other : String) :
    next.getUser other = if lowerName other = lowerName user.username then some user else store.getUser other := by
  have hkey (name : String) (candidate : User) :
      eqIgnoreAsciiCase candidate.username name = true ↔ candidate.key = lowerName name := eqIgnoreAsciiCase_eq
  unfold getUser
  rw [hadded, List.find?_append]
  split
  · rename_i hsame
    have hnone : store.users.find? (fun candidate => eqIgnoreAsciiCase candidate.username other) = none := by
      rw [List.find?_eq_none]
      intro candidate hcandidate hmatch
      have hexists := userExists_iff.mpr ⟨candidate, hcandidate, ((hkey other candidate).mp hmatch).trans hsame⟩
      rw [hfresh] at hexists
      cases hexists
    rw [hnone, Option.none_or, List.find?_singleton, if_pos ((hkey other user).mpr hsame.symm)]
  · rename_i hother
    rw [List.find?_singleton, if_neg fun hmatch => hother ((hkey other user).mp hmatch).symm, Option.or_none]

/-- A user that is dropped answers to its name no more. -/
theorem getUser_of_kept (hkept : next.users = store.users.filter fun user => !eqIgnoreAsciiCase user.username username)
    (other : String) :
    next.getUser other = if lowerName other = lowerName username then none else store.getUser other := by
  unfold getUser
  rw [hkept, List.find?_filter]
  split
  · rename_i hsame
    rw [List.find?_eq_none]
    intro candidate _ hmatch
    obtain ⟨hstays, hnamed⟩ := of_decide_eq_true hmatch
    rw [eqIgnoreAsciiCase_eq, hsame, ← eqIgnoreAsciiCase_eq] at hnamed
    rw [hnamed] at hstays
    cases hstays
  · rename_i hother
    refine List.find?_congr fun candidate _ => ?_
    by_cases hmatch : eqIgnoreAsciiCase candidate.username other = true
    · have hne : eqIgnoreAsciiCase candidate.username username = false := by
        rw [Bool.eq_false_iff]
        exact fun hdropped => hother ((eqIgnoreAsciiCase_eq.mp hmatch).symm.trans (eqIgnoreAsciiCase_eq.mp hdropped))
      simp [hmatch, hne]
    · simp [hmatch]

theorem getUser_setHash (store : UserStore) (username hash : String) (other : String) :
    (store.setHash username hash).getUser other =
      if lowerName other = lowerName username then (store.getUser other).map (User.withHash · hash)
      else store.getUser other := by
  rw [getUser_eq, getUser_eq, setHash]
  split
  · rename_i hsame
    rw [hsame]
    exact KeyedList.lookup_update_self (User.key_withHash hash)
  · rename_i hother
    exact KeyedList.lookup_update_of_ne (User.key_withHash hash) hother

/-- Changing a hash changes the store exactly when the user has another one. -/
theorem setHash_eq_self_iff (store : UserStore) (username hash : String) :
    store.setHash username hash = store ↔
      ∀ user, store.getUser username = some user → user.passwordHash = hash := by
  constructor
  · intro hself user huser
    have hafter := getUser_setHash store username hash username
    rw [if_pos rfl, hself, huser, Option.map_some, Option.some.injEq] at hafter
    exact congrArg User.passwordHash hafter
  · intro hsame
    apply ext
    refine KeyedList.update_eq_self fun user huser => ?_
    rw [← hsame user (getUser_eq store username ▸ huser)]
    rfl

theorem userExists_setHash (store : UserStore) (username hash other : String) :
    (store.setHash username hash).userExists other = store.userExists other := by
  rw [userExists_eq, userExists_eq, getUser_setHash]
  split
  · exact Option.isSome_map
  · rfl

end UserStore

end HelionDb
