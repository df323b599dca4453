import HelionDb.Lexer
import HelionDb.Protocol
import Mathlib.Data.List.Forall2

/-! What `substitute_params` does to a statement. It replaces one number after the other all over the text, also
in what it has put there before, and goes by the letters of a parameter to decide on quotes. On clean texts
this is the replacement of every placeholder at once, and the tokens of the statement stay as they are but for
the literals in place of their placeholders. What the tokens of a text are is a parameter. -/

namespace HelionDb

/-- What the lexer of statements tells apart. -/
inductive Token where
  | placeholder (digits : List Char)
  | string (content : List Char)
  | number (text : List Char)
  | other (text : List Char)
  deriving DecidableEq

/-- The parameter that the digits behind a `$` name. -/
def named (params : List (List Char)) (digits : List Char) : Option (List Char) :=
  match Nat.ofDigitChars 10 digits 0 with
  | 0 => none
  | i + 1 => params[i]?

/-- A text with every placeholder, read with all digits behind its `$`, replaced at once; `skip` counts what is
left of the digits of the placeholder that was replaced last. -/
def expand (params : List (List Char)) : (skip : Nat) → List Char → List Char
  | _, [] => []
  | skip + 1, _ :: rest => expand params skip rest
  | 0, c :: rest =>
      match if c = '$' then named params (rest.takeWhile Char.isDigit) else none with
      | some param => paramValue param ++ expand params (rest.takeWhile Char.isDigit).length rest
      | none => c :: expand params 0 rest

/-- Digits, with a point and more digits behind them or not. -/
def isNumber (text : List Char) : Bool :=
  !(text.takeWhile Char.isDigit).isEmpty &&
    match text.dropWhile Char.isDigit with
    | [] => true
    | c :: fraction => c = '.' && fraction.all Char.isDigit

/-- The token is a literal for the parameter: a string that is it, or a number that reads like it. -/
inductive Denotes (param : List Char) : Token → Prop
  | string : Denotes param (.string param)
  | number (h : isNumber param = true) : Denotes param (.number param)

/-- A token of the statement and the one in its place: itself, or a literal in place of a placeholder. -/
def Replaces (params : List (List Char)) (token replaced : Token) : Prop :=
  replaced = token ∨ ∃ digits param, token = .placeholder digits ∧ named params digits = some param ∧ Denotes param replaced

/-- The placeholders of a statement, and nothing else, are replaced by literals for the parameters. -/
def Substitutes (lexer : Lexer Char Token) (sql : String) (params : List String) (result : String) : Prop :=
  result.toList = expand (params.map String.toList) 0 sql.toList ∧
    List.Forall₂ (Replaces (params.map String.toList)) (lexer.tokens sql.toList) (lexer.tokens result.toList)

/-- The lexer knows placeholders and the two kinds of literals. -/
structure ReadsLiterals (lexer : Lexer Char Token) : Prop where
  placeholder : ∀ digits, digits ≠ [] → (∀ c ∈ digits, c.isDigit = true) →
    lexer.Reads ('$' :: digits) (.placeholder digits)
  string : ∀ content, lexer.Reads (quoted content) (.string content)
  number : ∀ text, isNumber text = true → lexer.Reads text (.number text)

/-- The parameter is put into the text as a literal for it, and when its turn has come, no later number is found in it. -/
structure Literal (params : List (List Char)) (digits param : List Char) : Prop where
  number : needsQuoting param = false → isNumber param = true
  string : needsQuoting param = true → ∀ later, Nat.ofDigitChars 10 digits 0 < later → later ≤ params.length →
    ¬ placeholder later <:+: param

/-- A `$` that starts no placeholder: neither all digits behind it nor the first one alone name a parameter, and
no number comes to stand behind it. -/
structure Inert (params : List (List Char)) (rest : List Char) : Prop where
  run : named params (rest.takeWhile Char.isDigit) = none
  first : ∀ c ∈ rest.head?, c.isDigit = true → named params [c] = none
  behind : ∀ c ∈ (expand params 0 rest).head?, c.isDigit = true → c ∈ rest.head?

/-- A text behind a state of the lexer: each `$` is inert or starts a placeholder of one digit, which is a token of
its own, also when the parameter stands in its place. -/
inductive Clean (lexer : Lexer Char Token) (params : List (List Char)) : lexer.State → List Char → Prop
  | nil (state : lexer.State) : Clean lexer params state []
  | letter (state : lexer.State) (c : Char) (rest : List Char) (inert : c = '$' → Inert params rest)
      (clean : Clean lexer params (lexer.feed state c).2 rest) : Clean lexer params state (c :: rest)
  | placeholder (state : lexer.State) (digit : Char) (param rest : List Char) (isDigit : digit.isDigit = true)
      (names : named params [digit] = some param) (run : ∀ c ∈ rest.head?, c.isDigit = false)
      (literal : Literal params [digit] param) (starts : lexer.Breaks state ['$'])
      (startsLiteral : lexer.Breaks state (paramValue param)) (ends : lexer.BreaksBehind ['$', digit] rest)
      (endsLiteral : lexer.BreaksBehind (paramValue param) (expand params 0 rest))
      (clean : Clean lexer params lexer.start rest) : Clean lexer params state ('$' :: digit :: rest)

/-! ### Digits -/

section

variable {params : List (List Char)} {digits param rest : List Char} {digit : Char}

theorem named_eq_some : named params digits = some param ↔
    ∃ i, Nat.ofDigitChars 10 digits 0 = i + 1 ∧ params[i]? = some param := by
  unfold named
  cases Nat.ofDigitChars 10 digits 0 with
  | zero => simp
  | succ i => simp

/-- Among the first parameters the digits name the one they name, if it is one of them. -/
theorem named_take (count : Nat) :
    named (params.take count) digits =
      if Nat.ofDigitChars 10 digits 0 ≤ count then named params digits else none := by
  unfold named
  cases Nat.ofDigitChars 10 digits 0 with
  | zero => simp
  | succ i =>
      dsimp only
      rw [List.getElem?_take]
      rfl

theorem digitChar_ofDigitChars (hdigit : digit.isDigit = true) :
    (Nat.ofDigitChars 10 [digit] 0).digitChar = digit ∧ Nat.ofDigitChars 10 [digit] 0 < 10 := by
  obtain ⟨hlow, hhigh⟩ := Char.isDigit_iff_toNat.mp hdigit
  have hzero : '0'.toNat = 48 := rfl
  have hnine : '9'.toNat = 57 := rfl
  have hvalue : Nat.ofDigitChars 10 [digit] 0 = digit.toNat - 48 := by
    rw [Nat.ofDigitChars_cons, Nat.ofDigitChars_nil, hzero, Nat.mul_zero, Nat.zero_add]
  have hlt : Nat.ofDigitChars 10 [digit] 0 < 10 := by omega
  refine ⟨?_, hlt⟩
  apply Char.toNat_inj.mp
  rw [Nat.toNat_digitChar_of_lt_ten hlt]
  omega

theorem ofDigitChars_digitChar {number : Nat} (hlt : number < 10) :
    Nat.ofDigitChars 10 [number.digitChar] 0 = number := by
  rw [Nat.ofDigitChars_cons_digitChar_of_lt_ten hlt, Nat.ofDigitChars_nil, Nat.mul_zero, Nat.zero_add]

/-- The first digit of a number that counts a parameter names one, too. -/
theorem named_head {number : Nat} (hpos : 0 < number) (hle : number ≤ params.length) :
    ∃ c tail, Nat.toDigits 10 number = c :: tail ∧ c.isDigit = true ∧ named params [c] ≠ none := by
  induction number using Nat.base_induction 10 (by decide) with
  | single number hlt =>
      refine ⟨number.digitChar, [], Nat.toDigits_of_lt_base hlt, ?_, fun hnone => ?_⟩
      · rw [Nat.isDigit_digitChar, decide_eq_true hlt]
      · obtain ⟨i, rfl⟩ := Nat.exists_eq_succ_of_ne_zero (Nat.ne_of_gt hpos)
        unfold named at hnone
        rw [ofDigitChars_digitChar hlt] at hnone
        exact absurd (List.getElem?_eq_none_iff.mp hnone) (by omega)
  | digit number last hlast hnumber ih =>
      obtain ⟨c, tail, hdigits, hdigit, hnamed⟩ := ih hnumber (by omega)
      refine ⟨c, tail ++ Nat.toDigits 10 last, ?_, hdigit, hnamed⟩
      rw [← Nat.toDigits_append_toDigits (by decide) hnumber hlast, hdigits, List.cons_append]

theorem mem_placeholder {number : Nat} {c : Char} (hc : c ∈ placeholder number) : c = '$' ∨ c.isDigit = true :=
  (List.mem_cons.mp hc).imp_right fun hdigit => Nat.isDigit_of_mem_toDigits (by decide) (by decide) hdigit

/-- A number is a digit, more digits, and a fraction or not. -/
theorem isNumber_cases {text : List Char} (h : isNumber text = true) :
    ∃ first whole, (∀ c ∈ first :: whole, c.isDigit = true) ∧
      (text = first :: whole ∨ ∃ fraction, text = first :: whole ++ '.' :: fraction ∧ ∀ c ∈ fraction, c.isDigit = true) := by
  have hsplit := List.takeWhile_append_dropWhile (p := Char.isDigit) (l := text)
  unfold isNumber at h
  obtain ⟨hwhole, hbehind⟩ := (Bool.and_eq_true _ _).mp h
  cases hdigits : text.takeWhile Char.isDigit with
  | nil =>
      rw [hdigits] at hwhole
      cases hwhole
  | cons first whole =>
      refine ⟨first, whole, fun c hc => List.mem_takeWhile_imp (hdigits ▸ hc), ?_⟩
      rw [hdigits] at hsplit
      split at hbehind
      · rename_i hnil
        rw [hnil, List.append_nil] at hsplit
        exact .inl hsplit.symm
      · rename_i point fraction hcons
        obtain ⟨hpoint, hfraction⟩ := (Bool.and_eq_true _ _).mp hbehind
        rw [hcons, of_decide_eq_true hpoint] at hsplit
        exact .inr ⟨fraction, hsplit.symm, fun c hc => List.all_eq_true.mp hfraction c hc⟩

theorem mem_of_isNumber {text : List Char} {c : Char} (h : isNumber text = true) (hc : c ∈ text) :
    c.isDigit = true ∨ c = '.' := by
  obtain ⟨first, whole, hwhole, rfl | ⟨fraction, rfl, hfraction⟩⟩ := isNumber_cases h
  · exact .inl (hwhole c hc)
  · obtain hc | hc := List.mem_append.mp hc
    · exact .inl (hwhole c hc)
    · obtain rfl | hc := List.mem_cons.mp hc
      · exact .inr rfl
      · exact .inl (hfraction c hc)

end

section

variable {pattern value stretch rest : List Char} {c : Char}

theorem replaceAll_cons (h : ¬ pattern <+: c :: rest) :
    replaceAll pattern value 0 (c :: rest) = c :: replaceAll pattern value 0 rest := by
  rw [replaceAll, if_neg fun hprefix => h (List.isPrefixOf_iff_prefix.mp hprefix)]

/-- A stretch in which no occurrence begins is left as it is. -/
theorem replaceAll_append_of_not_prefix
    (h : ∀ behind, behind ≠ [] → behind <:+ stretch → ¬ pattern <+: behind ++ rest) :
    replaceAll pattern value 0 (stretch ++ rest) = stretch ++ replaceAll pattern value 0 rest := by
  induction stretch with
  | nil => rfl
  | cons c tail ih =>
      have hhere : ¬ pattern <+: c :: (tail ++ rest) := h (c :: tail) (List.cons_ne_nil c tail) (List.suffix_refl _)
      rw [List.cons_append, replaceAll_cons hhere, ih fun behind hne hsuffix =>
        h behind hne (hsuffix.trans (List.suffix_cons c tail)), List.cons_append]

theorem replaceAll_skip :
    replaceAll pattern value stretch.length (stretch ++ rest) = replaceAll pattern value 0 rest := by
  induction stretch with
  | nil => rfl
  | cons c tail ih =>
      rw [List.cons_append, List.length_cons, replaceAll]
      exact ih

theorem replaceAll_occurrence (hne : pattern ≠ []) :
    replaceAll pattern value 0 (pattern ++ rest) = value ++ replaceAll pattern value 0 rest := by
  obtain ⟨c, tail, rfl⟩ := List.exists_cons_of_ne_nil hne
  have hprefix : (c :: tail).isPrefixOf (c :: (tail ++ rest)) = true :=
    List.isPrefixOf_iff_prefix.mpr (List.prefix_append (c :: tail) rest)
  rw [List.cons_append, replaceAll, if_pos hprefix, List.length_cons, Nat.add_sub_cancel, replaceAll_skip]

end

section

variable {params : List (List Char)} {digits param rest pattern : List Char}

theorem paramValue_ne_nil (param : List Char) : paramValue param ≠ [] := by
  unfold paramValue
  split
  · exact List.cons_ne_nil _ _
  · rename_i hquoting
    rintro rfl
    exact hquoting rfl

/-- The letters between the quotes of a quoted parameter. -/
private def doubled (param : List Char) : List Char := param.flatMap fun c => if c = '\'' then ['\'', '\''] else [c]

private theorem doubled_cons (c : Char) (tail : List Char) :
    doubled (c :: tail) = (if c = '\'' then ['\'', '\''] else [c]) ++ doubled tail := List.flatMap_cons

private theorem prefix_of_prefix_doubled (hquote : '\'' ∉ pattern) (h : pattern <+: doubled param) :
    pattern <+: param := by
  induction param generalizing pattern with
  | nil => exact h
  | cons c tail ih =>
      cases pattern with
      | nil => exact List.nil_prefix
      | cons d pattern =>
          rw [doubled_cons] at h
          split at h
          · obtain ⟨rfl, -⟩ := List.cons_prefix_cons.mp h
            exact absurd List.mem_cons_self hquote
          · obtain ⟨rfl, htail⟩ := List.cons_prefix_cons.mp h
            exact List.cons_prefix_cons.mpr ⟨rfl, ih (fun hmem => hquote (List.mem_cons_of_mem d hmem)) htail⟩

private theorem prefix_of_prefix_append {front behind : List Char} (hquote : '\'' ∉ pattern)
    (h : pattern <+: front ++ ('\'' :: behind)) : pattern <+: front := by
  induction front generalizing pattern with
  | nil =>
      cases pattern with
      | nil => exact List.nil_prefix
      | cons d pattern =>
          obtain ⟨rfl, -⟩ := List.cons_prefix_cons.mp h
          exact absurd List.mem_cons_self hquote
  | cons c tail ih =>
      cases pattern with
      | nil => exact List.nil_prefix
      | cons d pattern =>
          obtain ⟨rfl, htail⟩ := List.cons_prefix_cons.mp h
          exact List.cons_prefix_cons.mpr ⟨rfl, ih (fun hmem => hquote (List.mem_cons_of_mem d hmem)) htail⟩

/-- A pattern without quotes that occurs between the quotes occurs in the parameter. -/
private theorem infix_of_infix_doubled (hne : pattern ≠ []) (hquote : '\'' ∉ pattern) (h : pattern <:+: doubled param) :
    pattern <:+: param := by
  have hhead (tail : List Char) : ¬ pattern <+: '\'' :: tail := by
    obtain ⟨d, behind, rfl⟩ := List.exists_cons_of_ne_nil hne
    intro hprefix
    obtain ⟨rfl, -⟩ := List.cons_prefix_cons.mp hprefix
    exact hquote List.mem_cons_self
  induction param with
  | nil => exact h
  | cons c tail ih =>
      rw [List.infix_cons_iff]
      by_cases hprefix : pattern <+: doubled (c :: tail)
      · exact .inl (prefix_of_prefix_doubled hquote hprefix)
      · refine .inr (ih ?_)
        rw [doubled_cons] at h hprefix
        split at h
        · rename_i hc
          rw [if_pos hc] at hprefix
          exact ((List.infix_cons_iff.mp ((List.infix_cons_iff.mp h).resolve_left (hhead _))).resolve_left (hhead _))
        · rename_i hc
          rw [if_neg hc] at hprefix
          exact (List.infix_cons_iff.mp h).resolve_left hprefix

/-- No later number is found in what stands for a literal, nor over its end. -/
theorem Literal.not_prefix (h : Literal params digits param) {later : Nat} (hlater : Nat.ofDigitChars 10 digits 0 < later)
    (hle : later ≤ params.length) {behind : List Char} (hne : behind ≠ []) (hsuffix : behind <:+ paramValue param) :
    ¬ placeholder later <+: behind ++ rest := by
  obtain ⟨c, tail, rfl⟩ := List.exists_cons_of_ne_nil hne
  intro hprefix
  unfold paramValue at hsuffix
  cases hquoting : needsQuoting param with
  | false =>
      rw [hquoting, if_neg (by decide)] at hsuffix
      obtain ⟨rfl, -⟩ := List.cons_prefix_cons.mp hprefix
      have hletter := mem_of_isNumber (h.number hquoting) (hsuffix.subset List.mem_cons_self)
      revert hletter
      decide
  | true =>
      rw [hquoting, if_pos rfl] at hsuffix
      have hquote : '\'' ∉ placeholder later := by
        intro hmem
        have hletter := mem_placeholder hmem
        revert hletter
        decide
      -- The stretch ends with the closing quote, which is in no placeholder.
      obtain hnil | ⟨front, hfront, hinside⟩ := List.suffix_concat_iff.mp hsuffix
      · cases hnil
      · rw [hfront, List.append_assoc] at hprefix
        have hbefore := prefix_of_prefix_append hquote hprefix
        refine h.string hquoting later hlater hle (infix_of_infix_doubled (List.cons_ne_nil _ _) hquote ?_)
        obtain rfl | hinside := List.suffix_cons_iff.mp hinside
        · exact absurd (List.cons_prefix_cons.mp hbefore).1 (by decide)
        · exact hbefore.isInfix.trans hinside.isInfix

end

/-! ### Clean texts -/

section

variable {lexer : Lexer Char Token} {params : List (List Char)} {param rest text : List Char} {state : lexer.State}
  {digit : Char} {count : Nat}

theorem takeWhile_digit (hdigit : digit.isDigit = true) (hrun : ∀ c ∈ rest.head?, c.isDigit = false) :
    (digit :: rest).takeWhile Char.isDigit = [digit] := by
  rw [List.takeWhile_cons_of_pos hdigit]
  cases rest with
  | nil => rfl
  | cons c tail => rw [List.takeWhile_cons_of_neg (by rw [hrun c rfl]; decide)]

theorem expand_letter {c : Char} (h : c = '$' → named params (rest.takeWhile Char.isDigit) = none) :
    expand params 0 (c :: rest) = c :: expand params 0 rest := by
  rw [expand]
  split
  · rename_i heq
    split at heq
    · rename_i hc
      rw [h hc] at heq
      cases heq
    · cases heq
  · rfl

theorem expand_placeholder (hdigit : digit.isDigit = true) (hrun : ∀ c ∈ rest.head?, c.isDigit = false)
    (hnames : named params [digit] = some param) :
    expand params 0 ('$' :: digit :: rest) = paramValue param ++ expand params 0 rest := by
  rw [expand, if_pos rfl, takeWhile_digit hdigit hrun, hnames]
  rfl

theorem expand_kept (hdigit : digit.isDigit = true) (hrun : ∀ c ∈ rest.head?, c.isDigit = false)
    (hnames : named params [digit] = none) :
    expand params 0 ('$' :: digit :: rest) = '$' :: digit :: expand params 0 rest := by
  rw [expand_letter fun _ => by rw [takeWhile_digit hdigit hrun, hnames], expand_letter]
  rintro rfl
  cases hdigit

theorem expand_nil_params (text : List Char) : expand [] 0 text = text := by
  induction text with
  | nil => rfl
  | cons c rest ih =>
      rw [expand_letter, ih]
      intro _
      unfold named
      split <;> rfl

/-- A `$` that is inert stays so while only the first parameters are put in. -/
theorem Inert.take (h : Inert params rest) (count : Nat) :
    named (params.take count) (rest.takeWhile Char.isDigit) = none ∧
      ∀ c ∈ (expand (params.take count) 0 rest).head?, c.isDigit = true → c ∈ rest.head? := by
  refine ⟨by rw [named_take, h.run, ite_self], fun c hc hdigit => ?_⟩
  cases rest with
  | nil => exact hc
  | cons d tail =>
      cases hnamed : if d = '$' then named (params.take count) (tail.takeWhile Char.isDigit) else none with
      | none =>
          rw [expand, hnamed] at hc
          exact hc
      | some param =>
          -- The same value stands there in the end.
          refine h.behind c ?_ hdigit
          split at hnamed
          · rename_i hd
            rw [named_take] at hnamed
            split at hnamed
            · rename_i hle
              rw [expand, if_pos hd, named_take, if_pos hle, hnamed] at hc
              rw [expand, if_pos hd, hnamed]
              obtain ⟨first, behind, hvalue⟩ := List.exists_cons_of_ne_nil (paramValue_ne_nil param)
              dsimp only at hc ⊢
              rw [hvalue] at hc ⊢
              exact hc
            · cases hnamed
          · cases hnamed

/-- The turn of one parameter on a clean text in which those before it stand already. -/
theorem replaceAll_of_clean (h : Clean lexer params state text) {value : List Char} (hvalue : params[count]? = some value) :
    replaceAll (placeholder (count + 1)) (paramValue value) 0 (expand (params.take count) 0 text) =
      expand (params.take (count + 1)) 0 text := by
  have hlt : count < params.length := (List.getElem?_eq_some_iff.mp hvalue).1
  induction h with
  | nil state => rfl
  | letter state c rest inert _ ih =>
      have hnext (k : Nat) : expand (params.take k) 0 (c :: rest) = c :: expand (params.take k) 0 rest :=
        expand_letter fun hc => ((inert hc).take k).1
      rw [hnext, hnext, replaceAll_cons, ih]
      intro hprefix
      obtain ⟨hc, hdigits⟩ := List.cons_prefix_cons.mp hprefix
      obtain ⟨d, tail, hnumber, hdigit, hnamed⟩ := @named_head params _ (Nat.succ_pos count) hlt
      rw [hnumber] at hdigits
      obtain ⟨behind, hbehind⟩ := hdigits
      have hhead := ((inert hc.symm).take count).2 d (by rw [← hbehind]; rfl) hdigit
      exact hnamed ((inert hc.symm).first d hhead hdigit)
  | placeholder state digit param rest isDigit names run literal _ _ _ _ _ ih =>
      obtain ⟨hdigit, hsmall⟩ := digitChar_ofDigitChars isDigit
      obtain ⟨i, hi, hparam⟩ := named_eq_some.mp names
      have hne : digit ≠ '$' := by
        rintro rfl
        cases isDigit
      have hplaced (k : Nat) (hle : i + 1 ≤ k) :
          expand (params.take k) 0 ('$' :: digit :: rest) = paramValue param ++ expand (params.take k) 0 rest :=
        expand_placeholder isDigit run (by rw [named_take, hi, if_pos hle, names])
      have hkept (k : Nat) (hlt : k < i + 1) :
          expand (params.take k) 0 ('$' :: digit :: rest) = '$' :: digit :: expand (params.take k) 0 rest :=
        expand_kept isDigit run (by rw [named_take, hi, if_neg (by omega)])
      rcases Nat.lt_trichotomy i count with hbefore | hnow | hbehind
      · rw [hplaced count hbefore, hplaced (count + 1) (by omega), replaceAll_append_of_not_prefix, ih]
        intro behind hbehind hsuffix
        exact literal.not_prefix (by omega) hlt hbehind hsuffix
      · subst hnow
        have hpattern : placeholder (i + 1) = ['$', digit] := by
          rw [placeholder, Nat.toDigits_of_lt_base (by omega), ← hi, hdigit]
        obtain rfl : param = value := Option.some.inj (hparam.symm.trans hvalue)
        rw [hkept i (Nat.lt_succ_self i), hplaced (i + 1) le_rfl, ← ih]
        rw [hpattern]
        exact replaceAll_occurrence (List.cons_ne_nil _ _)
      · rw [hkept count (by omega), hkept (count + 1) (by omega), replaceAll_cons, replaceAll_cons, ih]
        · intro hprefix
          obtain ⟨hc, -⟩ := List.cons_prefix_cons.mp hprefix
          exact hne hc.symm
        · intro hprefix
          obtain ⟨-, hdigits⟩ := List.cons_prefix_cons.mp hprefix
          rw [Nat.toDigits_of_lt_base (by omega)] at hdigits
          obtain ⟨hc, -⟩ := List.cons_prefix_cons.mp hdigits
          have hsame : Nat.ofDigitChars 10 [(count + 1).digitChar] 0 = Nat.ofDigitChars 10 [digit] 0 := by rw [hc]
          rw [ofDigitChars_digitChar (by omega), hi] at hsame
          omega

/-- All turns, from the one of a number on. -/
theorem substituteFrom_of_clean (h : Clean lexer params state text) (count : Nat) :
    substituteFrom (count + 1) (params.drop count) (expand (params.take count) 0 text) = expand params 0 text := by
  generalize hrest : params.drop count = rest
  induction rest generalizing count with
  | nil => rw [substituteFrom, List.take_of_length_le (List.drop_eq_nil_iff.mp hrest)]
  | cons value later ih =>
      have hvalue : params[count]? = some value := by rw [← List.head?_drop, hrest, List.head?_cons]
      have hlater : params.drop (count + 1) = later := by rw [← List.tail_drop, hrest, List.tail_cons]
      rw [substituteFrom, replaceAll_of_clean h hvalue, ih (count + 1) hlater]

theorem expand_of_clean (h : Clean lexer params state text) : substituteFrom 1 params text = expand params 0 text := by
  have hall := substituteFrom_of_clean h 0
  rw [List.take_zero, expand_nil_params, List.drop_zero] at hall
  exact hall

/-- What is put in for a parameter is read as one literal for it. -/
theorem Literal.reads {digits : List Char} (h : Literal params digits param) (hlexer : ReadsLiterals lexer) :
    ∃ literal, lexer.Reads (paramValue param) literal ∧ Denotes param literal := by
  unfold paramValue
  cases hquoting : needsQuoting param with
  | false =>
      have hnumber := h.number hquoting
      exact ⟨.number param, hlexer.number param hnumber, .number hnumber⟩
  | true => exact ⟨.string param, hlexer.string param, .string⟩

/-- The tokens of a clean text and of its expansion agree but for the literals. -/
theorem tokens_of_clean (hlexer : ReadsLiterals lexer) (h : Clean lexer params state text) :
    List.Forall₂ (Replaces params) (lexer.tokensFrom state text) (lexer.tokensFrom state (expand params 0 text)) := by
  have hsame (tokens : List Token) : List.Forall₂ (Replaces params) tokens tokens :=
    List.forall₂_same.mpr fun token _ => .inl rfl
  induction h with
  | nil state => exact hsame _
  | letter state c rest inert _ ih =>
      rw [expand_letter fun hc => (inert hc).run, Lexer.tokensFrom, Lexer.tokensFrom]
      exact List.rel_append (hsame _) ih
  | placeholder state digit param rest isDigit names run literal starts startsLiteral ends endsLiteral _ ih =>
      have hdigits : lexer.Reads ['$', digit] (.placeholder [digit]) :=
        hlexer.placeholder [digit] (List.cons_ne_nil _ _) fun c hc => List.mem_singleton.mp hc ▸ isDigit
      obtain ⟨token, hreads, hdenotes⟩ := literal.reads hlexer
      have hstarts : lexer.Breaks state ['$', digit] := starts
      have horiginal := Lexer.tokensFrom_of_reads hstarts (List.cons_ne_nil _ _) hdigits ends
      rw [List.cons_append, List.cons_append, List.nil_append] at horiginal
      rw [expand_placeholder isDigit run names, horiginal,
        Lexer.tokensFrom_of_reads startsLiteral (paramValue_ne_nil param) hreads endsLiteral]
      exact List.rel_append (hsame _) (.cons (.inr ⟨[digit], param, rfl, names, hdenotes⟩) ih)

/-- On a clean text `substitute_params` replaces the placeholders, and nothing else, by literals for the parameters. -/
theorem substituteParams_of_clean (lexer : Lexer Char Token) (hlexer : ReadsLiterals lexer) (sql : String)
    (params : List String) (hclean : Clean lexer (params.map String.toList) lexer.start sql.toList) :
    Substitutes lexer sql params (substituteParams sql params) := by
  unfold Substitutes substituteParams
  rw [String.toList_ofList, expand_of_clean hclean]
  exact ⟨rfl, tokens_of_clean hlexer hclean⟩

end

namespace PlainText

/-- What the lexer of plain texts holds. -/
inductive Reading where
  | blank
  | word (text : List Char)
  | string (content : List Char)
  | closing (content : List Char)
  | dollar
  | digits (read : List Char)
  | number (text : List Char)
  | fraction (text : List Char)

namespace Reading

def flush : Reading → List Token
  | blank => []
  | word text => [.other text]
  | string content => [.other ('\'' :: content)]
  | closing content => [.string content]
  | dollar => [.other ['$']]
  | digits read => [.placeholder read]
  | number text | fraction text => [.number text]

/-- The first letter of a token. -/
def begins (c : Char) : List Token × Reading :=
  if c = '\'' then ([], string [])
  else if c = '$' then ([], dollar)
  else if c.isDigit then ([], number [c])
  else if c.isAlpha then ([], word [c])
  else ([.other [c]], blank)

/-- A letter that does not belong to what is held. -/
def breaks (reading : Reading) (c : Char) : List Token × Reading := (reading.flush ++ (begins c).1, (begins c).2)

def feed : Reading → Char → List Token × Reading
  | blank, c => begins c
  | word text, c => if c.isAlphanum then ([], word (text ++ [c])) else (word text).breaks c
  | string content, c => if c = '\'' then ([], closing content) else ([], string (content ++ [c]))
  | closing content, c => if c = '\'' then ([], string (content ++ [c])) else (closing content).breaks c
  | dollar, c => if c.isDigit then ([], digits [c]) else dollar.breaks c
  | digits read, c => if c.isDigit then ([], digits (read ++ [c])) else (digits read).breaks c
  | number text, c =>
      if c.isDigit then ([], number (text ++ [c])) else if c = '.' then ([], fraction (text ++ [c]))
      else (number text).breaks c
  | fraction text, c => if c.isDigit then ([], fraction (text ++ [c])) else (fraction text).breaks c

end Reading

/-- Words, numbers, strings, placeholders and single letters. -/
def lexer : Lexer Char Token where
  State := Reading
  start := .blank
  feed := Reading.feed
  flush := Reading.flush
  flush_start := rfl

theorem read_doubled (content before : List Char) :
    lexer.read (Reading.string before) (doubled content ++ ['\'']) = ([], Reading.closing (before ++ content)) := by
  induction content generalizing before with
  | nil =>
      rw [List.append_nil]
      rfl
  | cons c rest ih =>
      have hrest := ih (before ++ [c])
      rw [List.append_assoc, List.singleton_append] at hrest
      rw [doubled_cons, ← hrest]
      split
      · rename_i hc
        subst hc
        rfl
      · rename_i hc
        have hfeed : lexer.feed (Reading.string before) c = ([], Reading.string (before ++ [c])) := if_neg hc
        exact Lexer.read_of_feed hfeed _

/-- What is held at the end of a stretch is its token. -/
theorem reads_of_read {stretch : List Char} {token : Token} {reading : Reading}
    (hread : lexer.read lexer.start stretch = ([], reading)) (hflush : reading.flush = [token]) :
    lexer.Reads stretch token := by
  unfold Lexer.Reads
  rw [hread]
  exact ⟨rfl, hflush⟩

theorem readsLiterals_lexer : ReadsLiterals lexer where
  placeholder digits hne hdigits := by
    obtain ⟨first, rest, rfl⟩ := List.exists_cons_of_ne_nil hne
    have hfirst : lexer.feed Reading.dollar first = ([], Reading.digits [first]) :=
      if_pos (hdigits first List.mem_cons_self)
    have hrest : lexer.read (Reading.digits [first]) rest = ([], Reading.digits ([first] ++ rest)) :=
      Lexer.read_held [first] fun text c hc => if_pos (hdigits c (List.mem_cons_of_mem first hc))
    have hdollar : lexer.feed lexer.start '$' = ([], Reading.dollar) := rfl
    have hread : lexer.read lexer.start ('$' :: first :: rest) = ([], Reading.digits (first :: rest)) := by
      rw [Lexer.read_of_feed hdollar, Lexer.read_of_feed hfirst]
      exact hrest
    exact reads_of_read hread (by rfl)
  string content := reads_of_read (read_doubled content []) (by rfl)
  number text hnumber := by
    obtain ⟨first, whole, hwhole, hrest⟩ := isNumber_cases hnumber
    have hdigit := hwhole first List.mem_cons_self
    have hquote : first ≠ '\'' := by
      rintro rfl
      cases hdigit
    have hdollar : first ≠ '$' := by
      rintro rfl
      cases hdigit
    have hfirst : lexer.feed lexer.start first = ([], Reading.number [first]) :=
      (if_neg hquote).trans ((if_neg hdollar).trans (if_pos hdigit))
    have hread : lexer.read lexer.start (first :: whole) = ([], Reading.number (first :: whole)) := by
      rw [Lexer.read_of_feed hfirst]
      exact Lexer.read_held [first] fun text c hc => if_pos (hwhole c (List.mem_cons_of_mem first hc))
    obtain rfl | ⟨fraction, rfl, hfraction⟩ := hrest
    · exact reads_of_read hread (by rfl)
    · have hpoint : lexer.feed (Reading.number (first :: whole)) '.' = ([], Reading.fraction (first :: whole ++ ['.'])) := by
        rfl
      have hbehind : lexer.read (Reading.fraction (first :: whole ++ ['.'])) fraction =
          ([], Reading.fraction ((first :: whole ++ ['.']) ++ fraction)) :=
        Lexer.read_held (first :: whole ++ ['.']) fun text c hc => if_pos (hfraction c hc)
      have htext : (first :: whole ++ ['.']) ++ fraction = first :: whole ++ '.' :: fraction := by
        rw [List.append_assoc, List.singleton_append]
      rw [htext] at hbehind
      have hall : lexer.read lexer.start (first :: whole ++ '.' :: fraction) =
          ([], Reading.fraction (first :: whole ++ '.' :: fraction)) := by
        rw [Lexer.read_append hread, Lexer.read_of_feed hpoint, hbehind]
      exact reads_of_read hall (by rfl)

/-- Two placeholders, one for a text with a quote and one for a number. -/
theorem substitutes_two : Substitutes lexer "$1 = $2" ["it's", "42"] (substituteParams "$1 = $2" ["it's", "42"]) := by
  refine substituteParams_of_clean lexer readsLiterals_lexer "$1 = $2" ["it's", "42"] ?_
  refine .placeholder _ '1' "it's".toList _ rfl (by decide) (by rintro c ⟨⟩; rfl) ?_ (Lexer.breaks_cons rfl _)
    (Lexer.breaks_cons rfl _) (Lexer.breaks_cons rfl _) (Lexer.breaks_cons rfl _) ?_
  · refine ⟨by decide, fun _ later hlow hhigh => ?_⟩
    obtain rfl : later = 2 := Nat.le_antisymm hhigh hlow
    decide
  · refine .letter _ ' ' _ (by simp) (.letter _ '=' _ (by simp) (.letter _ ' ' _ (by simp) ?_))
    refine .placeholder _ '2' "42".toList _ rfl (by decide) (by rintro c ⟨⟩) ⟨fun _ => by decide, fun h => ?_⟩
      (Lexer.breaks_cons rfl _) (Lexer.breaks_cons rfl _) ?_ ?_ (.nil _)
    · exact absurd h (by decide)
    · intro letter hletter
      cases hletter
    · intro letter hletter
      cases hletter

/-- The first parameter takes the place of the beginning of the tenth placeholder, the second one is put into the
first, and the third one takes the end of its statement with it. -/
theorem not_substitutes_plain :
    ¬ Substitutes lexer "a = $10" ["5"] (substituteParams "a = $10" ["5"]) ∧
      ¬ Substitutes lexer "$1, $2" ["to $2", "b c"] (substituteParams "$1, $2" ["to $2", "b c"]) ∧
      ¬ Substitutes lexer "a = ($1)" ["1)OR(1=1"] (substituteParams "a = ($1)" ["1)OR(1=1"]) := by
  refine ⟨fun h => ?_, fun h => ?_, fun h => ?_⟩
  · have htext := h.1
    revert htext
    decide
  · have htext := h.1
    revert htext
    decide
  · have hlength := h.2.length_eq
    revert hlength
    decide

end PlainText

end HelionDb
