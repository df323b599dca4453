import HelionDb.OwnStatements
import HelionDb.StatementClauses

/-! ENGINE clauses behind CREATE TABLE statements. The text is cut at the last ENGINE of its upper-cased copy before
`sqlparser` sees it, wherever that ENGINE stands, and only where the statement starts with CREATE TABLE and single spaces. -/

namespace HelionDb

open scoped AlongText

open Parsed

/-- A statement that gives a table an engine. -/
def HelionStatement.namesEngine : HelionStatement → Bool
  | .createTable _ _ engine => engine.isSome
  | .alterTableEngine _ _ => true
  | _ => false

theorem splitWhitespace_append (text rest : List Char) :
    splitWhitespace (text ++ ' ' :: rest) = splitWhitespace text ++ splitWhitespace rest := by
  rw [splitWhitespace, List.splitOnP_append_cons text rest rfl, List.filter_append]
  rfl

theorem splitWhitespace_ne_nil {text : List Char} {c : Char} (hmem : c ∈ text) (hc : isWhitespace c = false) :
    splitWhitespace text ≠ [] := by
  induction text with
  | nil => cases hmem
  | cons d rest ih =>
      rw [splitWhitespace, List.splitOnP_cons_eq_if_modifyHead]
      split
      next hd =>
        rcases List.mem_cons.mp hmem with rfl | hrest
        · rw [hc] at hd
          cases hd
        · exact ih hrest
      next =>
        obtain ⟨first, more, hwords⟩ := List.exists_cons_of_ne_nil (List.splitOnP_ne_nil isWhitespace rest)
        rw [hwords]
        exact List.cons_ne_nil _ _

theorem splitWhitespace_word {word : List Char} (hne : word ≠ []) (h : ∀ c ∈ word, isWhitespace c = false) :
    splitWhitespace word = [word] := by
  rw [splitWhitespace, List.splitOnP_eq_singleton h]
  cases word with
  | nil => exact absurd rfl hne
  | cons c rest => rfl

/-- A word is not longer than its text. -/
theorem byteLength_word_le {text word : List Char} (h : word ∈ splitWhitespace text) :
    byteLength word ≤ byteLength text := by
  have hsplit : word ∈ text.splitOnP isWhitespace := List.mem_of_mem_filter h
  clear h
  induction text generalizing word with
  | nil => exact (List.mem_singleton.mp hsplit) ▸ Nat.le_refl _
  | cons d rest ih =>
      rw [List.splitOnP_cons_eq_if_modifyHead] at hsplit
      rw [byteLength_cons]
      split at hsplit
      next =>
        rcases List.mem_cons.mp hsplit with rfl | hrest
        · exact Nat.zero_le _
        · exact (ih hrest).trans (Nat.le_add_left _ _)
      next =>
        obtain ⟨first, more, hwords⟩ := List.exists_cons_of_ne_nil (List.splitOnP_ne_nil isWhitespace rest)
        rw [hwords, List.modifyHead_cons] at hsplit
        rcases List.mem_cons.mp hsplit with rfl | hmore
        · exact Nat.add_le_add_left (ih (hwords ▸ List.mem_cons_self)) _
        · exact (ih (hwords ▸ List.mem_cons_of_mem _ hmore)).trans (Nat.le_add_left _ _)

theorem byteLength_le_of_sublist {part text : List Char} (h : List.Sublist part text) :
    byteLength part ≤ byteLength text := by
  induction h with
  | slnil => exact Nat.le_refl _
  | cons c _ ih => exact ih.trans (Nat.le_add_left _ _)
  | cons_cons c _ ih => exact Nat.add_le_add_left ih _

theorem trim_sublist (text : List Char) : List.Sublist (trim text) text :=
  (List.rdropWhile_prefix isWhitespace _).sublist.trans (List.dropWhile_sublist isWhitespace)

/-! ### Clauses -/

/-- What stands behind ENGINE and an equals sign. -/
def engineRhs (rest : List Char) : List Char :=
  trim ((stripPrefix ['='] (trim rest)).getD (trim rest))

section

variable [UpperCasing]

theorem parseEngineClause_eq_pure_iff {clause : List Char} {name : String}
    (htrim : trim (trimSemicolons (trim clause)) = clause) :
    parseEngineClause clause = pure name ↔ startsWith "ENGINE".toList (upperText clause) = true ∧
      ∃ rest word, fromByte 6 clause = some rest ∧ (splitWhitespace (engineRhs rest)).head? = some word ∧
        String.ofList (trimBackticks word) = name := by
  rw [parseEngineClause, htrim]
  cases startsWith "ENGINE".toList (upperText clause) with
  | false => exact iff_of_false (by rintro ⟨⟩) fun h => Bool.false_ne_true h.1
  | true =>
      rw [Bool.not_true, if_neg Bool.false_ne_true, and_iff_right rfl, cut_bind_eq_pure_iff]
      refine exists_congr fun rest => ?_
      dsimp only
      rw [← engineRhs]
      cases hword : (splitWhitespace (engineRhs rest)).head? with
      | none =>
          refine iff_of_false (by rintro ⟨-, ⟨⟩⟩) ?_
          rintro ⟨_, -, ⟨⟩, -⟩
      | some word =>
          constructor
          · rintro ⟨hrest, h⟩
            exact ⟨word, hrest, rfl, pure_inj h⟩
          · rintro ⟨_, hrest, ⟨⟩, rfl⟩
            exact ⟨hrest, rfl⟩

/-- A name of an engine, as it may stand behind the equals sign. -/
def IsEngineName (engine : List Char) : Prop :=
  engine ≠ [] ∧ ∀ c ∈ engine, isWhitespace c = false ∧ c ≠ ';' ∧ c ≠ '\x60'

instance (engine : List Char) : Decidable (IsEngineName engine) := inferInstanceAs (Decidable (_ ∧ _))

/-- A text with an ENGINE clause behind it. -/
def engineText (text engine : List Char) : List Char := text ++ (" ENGINE = ".toList ++ engine)

variable {engine : List Char}

omit [UpperCasing] in
theorem IsEngineName.getLast? (h : IsEngineName engine) (front : List Char) :
    ∀ c ∈ (front ++ engine).getLast?, isWhitespace c = false ∧ c ≠ ';' := by
  intro c hc
  rw [List.getLast?_append_of_ne_nil _ h.1] at hc
  obtain ⟨hspace, hsemicolon, -⟩ := h.2 c (List.mem_of_getLast? hc)
  exact ⟨hspace, hsemicolon⟩

omit [UpperCasing] in
/-- A text that neither white space nor semicolons stand around. -/
theorem trim_trimSemicolons_eq_self {text : List Char} (hhead : ∀ c ∈ text.head?, isWhitespace c = false)
    (hlast : ∀ c ∈ text.getLast?, isWhitespace c = false ∧ c ≠ ';') : trim (trimSemicolons (trim text)) = text := by
  have htrim := trim_eq_self hhead fun c hc => (hlast c hc).1
  rw [htrim, trimSemicolons_eq_self fun c hc => (hlast c hc).2, htrim]

omit [UpperCasing] in
theorem head?_trimStart (text : List Char) : ∀ c ∈ (trimStart text).head?, isWhitespace c = false := by
  intro c hc
  have hnot := List.head?_dropWhile_not isWhitespace text
  rw [show (text.dropWhile isWhitespace).head? = some c from hc] at hnot
  exact hnot

omit [UpperCasing] in
theorem trimStart_ne_nil {text : List Char} {c : Char} (hmem : c ∈ text) (hc : isWhitespace c = false) :
    trimStart text ≠ [] := by
  intro hnil
  have hspace := List.dropWhile_eq_nil_iff.mp hnil c hmem
  rw [hc] at hspace
  cases hspace

omit [UpperCasing] in
theorem trim_append {text rest : List Char} (hne : trimStart text ≠ []) (hrest : rest ≠ [])
    (hlast : ∀ d ∈ rest.getLast?, isWhitespace d = false) : trim (text ++ rest) = trimStart text ++ rest := by
  have hempty : ¬ (text.dropWhile isWhitespace).isEmpty = true := fun h => hne (List.isEmpty_iff.mp h)
  rw [trim, List.dropWhile_append, if_neg hempty]
  refine List.rdropWhile_eq_self_iff.mpr fun hcut => ?_
  rw [hlast]
  · exact Bool.false_ne_true
  · have hlast' := List.getLast?_eq_some_getLast hcut
    rw [List.getLast?_append_of_ne_nil _ hrest] at hlast'
    exact hlast'

omit [UpperCasing] in
/-- The end of a text that is trimmed at its start. -/
theorem exists_trimStart_concat (front : List Char) {c : Char} (hc : isWhitespace c = false) :
    ∃ more, trimStart (front ++ [c]) = more ++ [c] := by
  rw [trimStart, List.dropWhile_append]
  split
  next =>
    refine ⟨[], ?_⟩
    rw [List.dropWhile_cons_of_neg (by rw [hc]; exact Bool.false_ne_true)]
    rfl
  next => exact ⟨_, rfl⟩

omit [UpperCasing] in
/-- What is read behind ENGINE, where something stands before the equals sign, does not end before that. -/
theorem exists_engineRhs_append (front : List Char) {c : Char} (hc : isWhitespace c = false) (heq : c ≠ '=') :
    ∃ text, c ∈ text ∧ ∀ rest : List Char, rest ≠ [] → (∀ d ∈ rest.getLast?, isWhitespace d = false) →
      engineRhs (front ++ [c] ++ rest) = text ++ rest := by
  have hmem (more : List Char) : c ∈ more ++ [c] := List.mem_append_right _ (List.mem_singleton_self c)
  obtain ⟨more, hmore⟩ := exists_trimStart_concat front hc
  have hstart {rest : List Char} (hrest : rest ≠ []) (hlast : ∀ d ∈ rest.getLast?, isWhitespace d = false) :
      trim (front ++ [c] ++ rest) = more ++ [c] ++ rest := by
    rw [trim_append (trimStart_ne_nil (hmem front) hc) hrest hlast, hmore]
  by_cases hequals : ∃ tail, more = '=' :: tail
  · obtain ⟨tail, rfl⟩ := hequals
    refine ⟨trimStart (tail ++ [c]), ?_, fun rest hrest hlast => ?_⟩
    · obtain ⟨kept, hkept⟩ := exists_trimStart_concat tail hc
      rw [hkept]
      exact hmem kept
    · rw [engineRhs, hstart hrest hlast]
      exact trim_append (trimStart_ne_nil (hmem tail) hc) hrest hlast
  · refine ⟨more ++ [c], hmem more, fun rest hrest hlast => ?_⟩
    have hstrip : stripPrefix ['='] (more ++ [c] ++ rest) = none := by
      rw [stripPrefix, if_neg]
      rintro hstart
      obtain ⟨tail, htail⟩ := startsWith_iff.mp hstart
      cases more with
      | nil => exact heq (List.cons.inj htail).1.symm
      | cons d more => exact hequals ⟨more, by rw [(List.cons.inj htail).1]⟩
    rw [engineRhs, hstart hrest hlast, hstrip, Option.getD_none, ← hstart hrest hlast]
    exact trim_eq_self (head?_trim _) (getLast?_trim _)

/-- A clause in which something stands between ENGINE and the last equals sign does not name what stands behind that. -/
theorem eq_of_parseEngineClause {six front first second : List Char} {c : Char} (hsix : byteLength six = 6)
    (hhead : ∀ d ∈ (six ++ (front ++ [c])).head?, isWhitespace d = false) (hc : isWhitespace c = false) (heq : c ≠ '=')
    (hfirst : IsEngineName first) (hsecond : IsEngineName second)
    (hread : ∀ engine ∈ [first, second],
      parseEngineClause (six ++ (front ++ [c]) ++ (" = ".toList ++ engine)) = pure (String.ofList engine)) :
    first = second := by
  obtain ⟨text, hmem, hrhs⟩ := exists_engineRhs_append front hc heq
  obtain ⟨word, more, hwords⟩ := List.exists_cons_of_ne_nil (splitWhitespace_ne_nil hmem hc)
  have hword {engine : List Char} (hname : IsEngineName engine)
      (h : parseEngineClause (six ++ (front ++ [c]) ++ (" = ".toList ++ engine)) = pure (String.ofList engine)) :
      engine = trimBackticks word := by
    have hne : six ++ (front ++ [c]) ≠ [] :=
      List.append_ne_nil_of_right_ne_nil _ (List.append_ne_nil_of_right_ne_nil _ nofun)
    have hclause : trim (trimSemicolons (trim (six ++ (front ++ [c]) ++ (" = ".toList ++ engine)))) =
        six ++ (front ++ [c]) ++ (" = ".toList ++ engine) := by
      refine trim_trimSemicolons_eq_self ?_ ?_
      · rwa [List.head?_append_of_ne_nil _ hne]
      · rw [← List.append_assoc]
        exact hname.getLast? _
    obtain ⟨-, rest, found, hrest, hfound, hengine⟩ := (parseEngineClause_eq_pure_iff hclause).mp h
    rw [List.append_assoc, ← hsix, fromByte_byteLength, Option.some_inj] at hrest
    rw [← hrest, hrhs (" = ".toList ++ engine) nofun fun d hd => (hname.getLast? _ d hd).1] at hfound
    have hfirstWord : (splitWhitespace (text ++ (" = ".toList ++ engine))).head? = some word := by
      rw [show " = ".toList ++ engine = ' ' :: ("= ".toList ++ engine) from rfl, splitWhitespace_append, hwords]
      rfl
    rw [← String.ofList_inj.mp hengine, Option.some.inj (hfirstWord.symm.trans hfound)]
  rw [hword hfirst (hread first List.mem_cons_self), hword hsecond (hread second (List.mem_cons_of_mem _ List.mem_cons_self))]

/-- A clause in front of the one with the name takes the name's place. -/
theorem eq_of_read_behind {text first second : List Char} (hfirst : IsEngineName first) (hsecond : IsEngineName second)
    (hne : text ≠ []) (hhead : ∀ d ∈ text.head?, isWhitespace d = false)
    (hread : ∀ engine ∈ [first, second],
      parseEngineClause (text ++ (" ENGINE = ".toList ++ engine)) = pure (String.ofList engine)) : first = second := by
  have hsplit (engine : List Char) :
      text ++ (" ENGINE = ".toList ++ engine) = text ++ " ENGIN".toList ++ ['E'] ++ (" = ".toList ++ engine) := by
    rw [List.append_assoc, List.append_assoc]
    rfl
  have hclause : trim (trimSemicolons (trim (text ++ (" ENGINE = ".toList ++ first)))) =
      text ++ (" ENGINE = ".toList ++ first) := by
    refine trim_trimSemicolons_eq_self ?_ ?_
    · rwa [List.head?_append_of_ne_nil _ hne]
    · rw [← List.append_assoc]
      exact hfirst.getLast? _
  obtain ⟨-, rest, word, hrest, -⟩ := (parseEngineClause_eq_pure_iff hclause).mp (hread first List.mem_cons_self)
  obtain ⟨six, hcut, hsix⟩ := fromByte_eq_some_iff.mp hrest
  rw [hsplit] at hcut
  have hlong : 7 ≤ byteLength (text ++ " ENGIN".toList ++ ['E']) := by
    rw [byteLength_append, byteLength_append, show byteLength " ENGIN".toList = 6 from rfl,
      show byteLength ['E'] = 1 from rfl]
    omega
  obtain ⟨more, hmore⟩ : ∃ more, text ++ " ENGIN".toList ++ ['E'] = six ++ more := by
    rcases List.append_eq_append_iff.mp hcut with ⟨extra, hextra, -⟩ | ⟨more, hmore, -⟩
    · rw [hextra, byteLength_append] at hsix
      omega
    · exact ⟨more, hmore⟩
  rcases List.eq_nil_or_concat more with rfl | ⟨front, c, rfl⟩
  · rw [hmore, List.append_nil, hsix] at hlong
    omega
  · rw [List.concat_eq_append, ← List.append_assoc] at hmore
    obtain rfl : 'E' = c := List.singleton_inj.mp (List.append_inj_right' hmore rfl)
    rw [List.append_assoc six] at hmore
    refine @eq_of_parseEngineClause _ six front first second 'E' hsix ?_ rfl (by decide) hfirst hsecond fun engine hengine => ?_
    · rwa [← hmore, List.append_assoc, List.head?_append_of_ne_nil _ hne]
    · rw [← hmore, ← hsplit]
      exact hread engine hengine

omit [UpperCasing] in
theorem trimBackticks_engine (h : IsEngineName engine) : trimBackticks engine = engine := by
  have hfront : engine.dropWhile (· = '\x60') = engine := by
    cases hengine : engine with
    | nil => rfl
    | cons c rest => exact List.dropWhile_cons_of_neg (by simpa using (h.2 c (hengine ▸ List.mem_cons_self)).2.2)
  rw [trimBackticks, hfront, List.rdropWhile_eq_self_iff]
  intro hne hbacktick
  exact (h.2 _ (List.getLast_mem hne)).2.2 (of_decide_eq_true hbacktick)

omit [UpperCasing] in
theorem trim_clause (h : IsEngineName engine) : trim ("ENGINE = ".toList ++ engine) = "ENGINE = ".toList ++ engine :=
  trim_eq_self (by rintro c ⟨⟩; rfl) fun c hc => (h.getLast? _ c hc).1

/-- A plain clause. -/
theorem parseEngineClause_engine (h : IsEngineName engine) :
    parseEngineClause ("ENGINE = ".toList ++ engine) = pure (String.ofList engine) := by
  have hclause : trim (trimSemicolons (trim ("ENGINE = ".toList ++ engine))) = "ENGINE = ".toList ++ engine :=
    trim_trimSemicolons_eq_self (by rintro c ⟨⟩; rfl) (h.getLast? _)
  have hlast (front : List Char) : ∀ c ∈ (front ++ engine).getLast?, isWhitespace c = false :=
    fun c hc => (h.getLast? front c hc).1
  refine (parseEngineClause_eq_pure_iff hclause).mpr ⟨?_, " = ".toList ++ engine, engine, ?_, ?_, ?_⟩
  · rw [upperText_append, upperText_ascii (by decide)]
    rfl
  · exact fromByte_byteLength "ENGINE".toList (" = ".toList ++ engine)
  · have htrim : trim (" = ".toList ++ engine) = '=' :: ' ' :: engine := by
      rw [show " = ".toList ++ engine = ' ' :: ('=' :: ' ' :: engine) from rfl, trim_cons rfl]
      exact trim_eq_self (by rintro c ⟨⟩; rfl) (hlast ['=', ' '])
    have hstart : trim engine = engine := by
      refine trim_eq_self (fun c hc => (h.2 c (List.mem_of_head? hc)).1) ?_
      exact hlast []
    rw [engineRhs, htrim, show '=' :: ' ' :: engine = ['='] ++ ' ' :: engine from rfl, stripPrefix_append, Option.getD_some,
      trim_cons rfl, hstart, splitWhitespace_word h.1 fun c hc => (h.2 c hc).1]
    rfl
  · rw [trimBackticks_engine h]

/-- A clause is at least six bytes longer than the name in it. -/
theorem byteLength_engine_le {clause engine : List Char} (htrim : trim (trimSemicolons (trim clause)) = clause)
    (h : parseEngineClause clause = pure (String.ofList engine)) : byteLength engine + 6 ≤ byteLength clause := by
  obtain ⟨-, rest, word, hrest, hword, hengine⟩ := (parseEngineClause_eq_pure_iff htrim).mp h
  obtain ⟨six, rfl, hsix⟩ := fromByte_eq_some_iff.mp hrest
  have hbackticks : byteLength (trimBackticks word) ≤ byteLength word :=
    byteLength_le_of_sublist ((List.rdropWhile_prefix _ _).sublist.trans (List.dropWhile_sublist _))
  have hstrip : List.Sublist ((stripPrefix ['='] (trim rest)).getD (trim rest)) (trim rest) := by
    rw [stripPrefix]
    split
    · exact List.drop_sublist _ _
    · exact List.Sublist.refl _
  have hrhs : byteLength (engineRhs rest) ≤ byteLength rest :=
    byteLength_le_of_sublist ((trim_sublist _).trans (hstrip.trans (trim_sublist rest)))
  have hle := byteLength_word_le (List.mem_of_head? hword)
  rw [← String.ofList_inj.mp hengine, byteLength_append, hsix]
  omega

/-- A clause that starts with another letter is none. -/
theorem parseEngineClause_ne_of_head {c : Char} {rest : List Char} {name : String} (hc : isWhitespace c = false)
    (hascii : c.toNat < 128) (hupper : c.toUpper ≠ 'E') : parseEngineClause (trim (c :: rest)) ≠ pure name := by
  have hhead : ∀ d ∈ (c :: rest).head?, isWhitespace d = false := by
    rintro d ⟨⟩
    exact hc
  have hleads := trim_isPrefix hhead
  obtain ⟨back, hback⟩ := (trim_trimSemicolons_isPrefix (head?_of_isPrefix hleads hhead)).trans hleads
  have hstart : startsWith "ENGINE".toList (upperText (trim (trimSemicolons (trim (trim (c :: rest)))))) = false := by
    rw [← Bool.not_eq_true, startsWith_iff]
    rintro ⟨more, hmore⟩
    cases hclause : trim (trimSemicolons (trim (trim (c :: rest)))) with
    | nil =>
        rw [hclause] at hmore
        cases hmore
    | cons d tail =>
        rw [hclause] at hmore hback
        rw [upperText_cons, (List.cons.inj hback).1, upper_ascii hascii] at hmore
        exact hupper (List.cons.inj hmore).1.symm
  rw [parseEngineClause, hstart]
  rintro ⟨⟩

/-- No clause that starts within ENGINE, or behind it, gives the name. -/
theorem parseEngineClause_ne {front back : List Char} (hname : IsEngineName engine)
    (hsplit : "NGINE = ".toList ++ engine = front ++ back) :
    parseEngineClause (trim back) ≠ pure (String.ofList engine) := by
  intro h
  have hclosed : ∀ c ∈ back, c ≠ ';' := by
    intro c hc
    have hmem : c ∈ "NGINE = ".toList ++ engine := hsplit ▸ List.mem_append_right front hc
    rcases List.mem_append.mp hmem with hkeyword | hengine
    · rintro rfl
      exact absurd hkeyword (by decide)
    · exact (hname.2 c hengine).2.1
  have hclause : trim (trimSemicolons (trim (trim back))) = trim back :=
    trim_trimSemicolons_eq_self (head?_trim back) fun c hc =>
      ⟨getLast?_trim back c hc, hclosed c (trim_subset back (List.mem_of_getLast? hc))⟩
  have hlong := (byteLength_engine_le hclause h).trans (byteLength_le_of_sublist (trim_sublist back))
  have hbytes : 8 + byteLength engine = byteLength front + byteLength back := by
    rw [← byteLength_append, ← hsplit, byteLength_append]
    rfl
  match front with
  | [] =>
      obtain rfl : 'N' :: ("GINE = ".toList ++ engine) = back := hsplit
      exact parseEngineClause_ne_of_head rfl (by decide) (by decide) h
  | [a] =>
      obtain rfl : 'G' :: ("INE = ".toList ++ engine) = back := (List.cons.inj hsplit).2
      exact parseEngineClause_ne_of_head rfl (by decide) (by decide) h
  | [a, b] =>
      obtain rfl : 'I' :: ("NE = ".toList ++ engine) = back := (List.cons.inj (List.cons.inj hsplit).2).2
      exact parseEngineClause_ne_of_head rfl (by decide) (by decide) h
  | a :: b :: c :: front =>
      rw [byteLength_cons, byteLength_cons, byteLength_cons] at hbytes
      have ha := a.utf8Size_pos
      have hb := b.utf8Size_pos
      have hc := c.utf8Size_pos
      omega

/-- A name that has ENGINE at its start, as the text before it ends in a space. -/
def startsWithEngine (engine : List Char) : Bool := startsWith "ENGINE".toList (upperText engine)

/-- By how many bytes the last ENGINE stands behind the text. -/
def engineSkip (named : Bool) : Nat := if named then 9 else 0

theorem notMem_upperText (h : IsEngineName engine) : ' ' ∉ upperText engine := by
  intro hmem
  obtain ⟨c, hc, hspace⟩ := List.mem_flatMap.mp hmem
  have hfalse := UpperCasing.isWhitespace_of_mem_upper c (h.2 c hc).1 ' ' hspace
  cases hfalse

/-- The last ENGINE is the one of the clause, or the start of the name. -/
theorem byteRfind_engineText (h : IsEngineName engine) (text : List Char) :
    byteRfind " ENGINE".toList (upperText (engineText text engine)) =
      some (byteLength (upperText text) + engineSkip (startsWithEngine engine)) := by
  have hspace := notMem_upperText h
  have hclause : upperText " ENGINE = ".toList = " ENGINE = ".toList := upperText_ascii (by decide)
  rw [engineText, upperText_append, upperText_append, hclause, startsWithEngine]
  cases hstart : startsWith "ENGINE".toList (upperText engine) with
  | false =>
      refine @byteRfind_of_last ' ' "ENGINE".toList (upperText text) (" = ".toList ++ upperText engine) fun hinside => ?_
      rcases @prefix_or_infix_of_head _ ' ' "ENGINE".toList "ENGINE".toList ('=' :: ' ' :: upperText engine) (by decide)
        hinside with ⟨more, hmore⟩ | hinside
      · cases hmore
      · rcases @prefix_or_infix_of_head _ ' ' "ENGINE".toList ['='] (upperText engine) (by decide) hinside with hleads | hinside
        · exact ne_true_of_eq_false hstart (startsWith_iff.mpr hleads)
        · exact hspace (hinside.subset List.mem_cons_self)
  | true =>
      obtain ⟨after, hafter⟩ := startsWith_iff.mp hstart
      have htext : upperText text ++ (" ENGINE = ".toList ++ upperText engine) =
          upperText text ++ " ENGINE =".toList ++ (' ' :: "ENGINE".toList ++ after) := by
        rw [← hafter, List.append_assoc]
        rfl
      have hlast : ¬ ' ' :: "ENGINE".toList <:+: "ENGINE".toList ++ after := by
        rw [hafter]
        exact fun hinside => hspace (hinside.subset List.mem_cons_self)
      rw [htext]
      refine (byteRfind_of_last hlast).trans ?_
      rw [byteLength_append]
      rfl

/-! ### The two texts -/

/-- A text starts with CREATE, a space, TABLE and a space. -/
def StartsCreateTable (text : List Char) : Prop := "CREATE TABLE ".toList <+: upperText (trimStart text ++ [' '])

/-- The place at which a text with a clause is cut lies in the white space before the clause. -/
def CutsBeforeEngine (named : Bool) (text : List Char) : Prop :=
  ∃ front space, trimStart text ++ [' '] = front ++ space ∧ (∀ c ∈ space, isWhitespace c = true) ∧
    byteLength front = byteLength (upperText (trimStart text)) + engineSkip named

theorem startsWith_engineText_iff {text : List Char} :
    startsWith "CREATE TABLE ".toList (upperText (engineText text engine)) = true ↔
      "CREATE TABLE ".toList <+: upperText (text ++ [' ']) := by
  have hspace : upperText [' '] = [' '] := upperText_ascii (by decide)
  have hclause : upperText " ENGINE = ".toList = " ENGINE = ".toList := upperText_ascii (by decide)
  rw [startsWith_iff, engineText, upperText_append, upperText_append, upperText_append, hclause, hspace]
  constructor
  · rintro ⟨more, hmore⟩
    rcases List.append_eq_append_iff.mp hmore with ⟨front, hfront, -⟩ | ⟨front, hkeyword, hclause⟩
    · exact ⟨front ++ [' '], by rw [hfront, List.append_assoc]⟩
    · match front with
      | [] => exact ⟨[' '], by rw [hkeyword, List.append_nil]⟩
      | [c] =>
          obtain rfl : ' ' = c := (List.cons.inj hclause).1
          exact ⟨[], by rw [hkeyword, List.append_nil]⟩
      | c :: d :: front =>
          obtain ⟨rfl, htail⟩ := List.cons.inj hclause
          obtain ⟨rfl, -⟩ := List.cons.inj htail
          have hinside : [' ', 'E'] <:+: "CREATE TABLE ".toList :=
            ⟨upperText text, front, by rw [hkeyword, List.append_assoc]; rfl⟩
          exact absurd hinside (by decide)
  · rintro ⟨more, hmore⟩
    refine ⟨more ++ ("ENGINE = ".toList ++ upperText engine), ?_⟩
    rw [← List.append_assoc, hmore, List.append_assoc]
    rfl

theorem infix_engineText (text : List Char) : " ENGINE".toList <:+: upperText (engineText text engine) := by
  have hclause : upperText " ENGINE = ".toList = " ENGINE = ".toList := upperText_ascii (by decide)
  rw [engineText, upperText_append, upperText_append, hclause]
  exact ⟨upperText text, " = ".toList ++ upperText engine, by rw [List.append_assoc]; rfl⟩

omit [UpperCasing] in
theorem trim_engineText {text : List Char} (h : IsEngineName engine) (hne : trimStart text ≠ []) :
    trim (engineText text engine) = engineText (trimStart text) engine :=
  trim_append hne nofun fun c hc => (h.getLast? _ c hc).1

section

variable [Rendering] [SqlExprText] [SqlTableText] [SqlParser] (uuidv7 : BitVec 128)

theorem parseCreateTableWithEngine_eq_pure_iff {sql : List Char} {statements : List HelionStatement} :
    parseCreateTableWithEngine uuidv7 sql = pure statements ↔
      let sql := trim (trimSemicolons (trim sql))
      ∃ pos front back engine parsed, byteRfind " ENGINE".toList (upperText sql) = some pos ∧
        uptoByte pos sql = some front ∧ fromByte pos sql = some back ∧ parseEngineClause (trim back) = pure engine ∧
        SqlParser.parseSql (trim front) = .ok parsed ∧
        (parsed.mapM fun stmt => (convertStatement uuidv7 stmt).map (setEngine engine)) = .ok statements := by
  rw [parseCreateTableWithEngine]
  generalize trim (trimSemicolons (trim sql)) = sql
  dsimp only
  cases hpos : byteRfind " ENGINE".toList (upperText sql) with
  | none =>
      refine iff_of_false (by rintro ⟨⟩) ?_
      rintro ⟨_, _, _, _, _, ⟨⟩, -⟩
  | some pos =>
      constructor
      · intro h
        obtain ⟨front, hfront, h⟩ := cut_bind_eq_pure_iff.mp h
        obtain ⟨back, hback, h⟩ := cut_bind_eq_pure_iff.mp h
        obtain ⟨engine, hengine, h⟩ := bind_eq_pure_iff.mp h
        split at h
        next => cases h
        next parsed hparsed => exact ⟨pos, front, back, engine, parsed, rfl, hfront, hback, hengine, hparsed, Option.some.inj h⟩
      · rintro ⟨_, front, back, engine, parsed, ⟨⟩, hfront, hback, hengine, hparsed, hstatements⟩
        refine cut_bind_eq_pure_iff.mpr ⟨front, hfront, cut_bind_eq_pure_iff.mpr ⟨back, hback, ?_⟩⟩
        refine bind_eq_pure_iff.mpr ⟨engine, hengine, ?_⟩
        rw [hparsed]
        exact congrArg some hstatements

omit [Rendering] [SqlExprText] [SqlTableText] [SqlParser] in
theorem StartsCreateTable.ne_nil {text : List Char} (h : StartsCreateTable text) : trimStart text ≠ [] := by
  intro hnil
  rw [StartsCreateTable, hnil, List.nil_append, upperText_ascii (by decide)] at h
  exact absurd h (by decide)

/-- Where a text starts with CREATE TABLE, one with a clause behind it goes to the parser of these. -/
theorem parse_engineText {text : List Char} (h : IsEngineName engine) (hstart : StartsCreateTable text) :
    parse uuidv7 (engineText text engine) = parseCreateTableWithEngine uuidv7 (engineText (trimStart text) engine) := by
  have hlooks : looksLikeCreateTableWithEngine (engineText (trimStart text) engine) = true := by
    rw [looksLikeCreateTableWithEngine, Bool.and_eq_true]
    refine ⟨startsWith_engineText_iff.mpr hstart, ?_⟩
    exact containsText_iff.mpr (infix_engineText (trimStart text))
  rw [parse, trim_engineText h hstart.ne_nil, if_pos hlooks]

omit [UpperCasing] [Rendering] [SqlExprText] [SqlTableText] [SqlParser] in
theorem setEngine_eq_createTable {engine : String} {statement : HelionStatement} {name : String} {columns : List ColumnMeta}
    {set : Option String} (h : setEngine engine statement = .createTable name columns set) :
    set = some engine ∧ ∃ old, statement = .createTable name columns old := by
  cases statement with
  | createTable =>
      cases h
      exact ⟨rfl, _, rfl⟩
  | _ => cases h

omit [UpperCasing] [Rendering] [SqlExprText] [SqlTableText] [SqlParser] in
/-- A text with a clause is trimmed already where it does not start with white space. -/
theorem trim_trimSemicolons_engineText {text : List Char} (h : IsEngineName engine) (hne : trimStart text ≠ []) :
    trim (trimSemicolons (trim (engineText (trimStart text) engine))) = engineText (trimStart text) engine := by
  refine trim_trimSemicolons_eq_self ?_ ?_
  · rw [engineText, List.head?_append_of_ne_nil _ hne]
    exact head?_trimStart text
  · rw [engineText, ← List.append_assoc]
    exact h.getLast? _

/-- A text with a clause is cut in two, the second of which names the engine. -/
theorem exists_of_parse_engineText {text : List Char} (h : IsEngineName engine) (hstart : StartsCreateTable text)
    {name : String} {columns : List ColumnMeta}
    (hparse : parse uuidv7 (engineText text engine) = pure [.createTable name columns (some (String.ofList engine))]) :
    ∃ front back, engineText (trimStart text) engine = front ++ back ∧
      byteLength front = byteLength (upperText (trimStart text)) + engineSkip (startsWithEngine engine) ∧
      parseEngineClause (trim back) = pure (String.ofList engine) := by
  rw [parse_engineText uuidv7 h hstart, parseCreateTableWithEngine_eq_pure_iff,
    trim_trimSemicolons_engineText h hstart.ne_nil] at hparse
  obtain ⟨pos, front, back, found, parsed, hpos, hfront, hback, hfound, -, hstatements⟩ := hparse
  rw [byteRfind_engineText h, Option.some_inj] at hpos
  obtain ⟨after, hsplit, hbytes⟩ := uptoByte_eq_some_iff.mp hfront
  rw [hsplit, ← hbytes, fromByte_byteLength, Option.some_inj] at hback
  refine ⟨front, after, hsplit, hbytes.trans hpos.symm, ?_⟩
  rw [hback, hfound]
  obtain ⟨stmt, -, hstmt⟩ := Loop.exists_of_mapM_ok hstatements (List.mem_singleton_self _)
  cases hconvert : convertStatement uuidv7 stmt with
  | error err =>
      rw [hconvert] at hstmt
      cases hstmt
  | ok statement =>
      rw [hconvert] at hstmt
      obtain ⟨hset, -⟩ := setEngine_eq_createTable (Except.ok.inj hstmt)
      rw [Option.some.inj hset]

/-- Two names of one kind can be read behind a text only if it is cut before the clause. -/
theorem cutsBeforeEngine_of_parse {text first second : List Char} (hfirst : IsEngineName first)
    (hsecond : IsEngineName second) (hne : first ≠ second) (hkind : startsWithEngine second = startsWithEngine first)
    (hstart : StartsCreateTable text) {name : String} {columns : List ColumnMeta}
    (hparse : ∀ engine ∈ [first, second],
      parse uuidv7 (engineText text engine) = pure [.createTable name columns (some (String.ofList engine))]) :
    CutsBeforeEngine (startsWithEngine first) text := by
  obtain ⟨front, back, hsplit, hbytes, hclause⟩ :=
    exists_of_parse_engineText uuidv7 hfirst hstart (hparse first List.mem_cons_self)
  rcases List.append_eq_append_iff.mp hsplit with ⟨extra, hfront, hextra⟩ | ⟨mid, htext, hback⟩
  · -- The cut lies behind the text: in the space before ENGINE, or too far.
    match extra with
    | [] =>
        rw [List.append_nil] at hfront
        rw [hfront] at hbytes
        exact ⟨trimStart text, [' '], rfl, by decide, hbytes⟩
    | [c] =>
        obtain rfl : ' ' = c := (List.cons.inj hextra).1
        exact ⟨front, [], by rw [hfront, List.append_nil], nofun, hbytes⟩
    | c :: d :: extra =>
        exact absurd hclause (parseEngineClause_ne hfirst (List.cons.inj (List.cons.inj hextra).2).2)
  · -- The cut lies in the text.
    by_cases hspace : ∀ c ∈ mid, isWhitespace c = true
    · refine ⟨front, mid ++ [' '], by rw [htext, List.append_assoc], ?_, hbytes⟩
      intro c hc
      rcases List.mem_append.mp hc with hc | hc
      · exact hspace c hc
      · rw [List.mem_singleton.mp hc]
        rfl
    · push Not at hspace
      obtain ⟨c, hc, hspace⟩ := hspace
      have hnone := trimStart_ne_nil hc (Bool.eq_false_iff.mpr hspace)
      have hread : ∀ engine ∈ [first, second],
          parseEngineClause (trimStart mid ++ (" ENGINE = ".toList ++ engine)) = pure (String.ofList engine) := by
        intro engine hengine
        have hname : IsEngineName engine ∧ startsWithEngine engine = startsWithEngine first := by
          rcases List.mem_cons.mp hengine with rfl | hengine
          · exact ⟨hfirst, rfl⟩
          · obtain rfl := List.mem_singleton.mp hengine
            exact ⟨hsecond, hkind⟩
        obtain ⟨front', back', hsplit', hbytes', hclause'⟩ :=
          exists_of_parse_engineText uuidv7 hname.1 hstart (hparse engine hengine)
        have hcut : fromByte (byteLength front) (engineText (trimStart text) engine) = some back' := by
          rw [hbytes, ← hname.2, ← hbytes', hsplit', fromByte_byteLength]
        rw [engineText, htext, List.append_assoc, fromByte_byteLength, Option.some_inj] at hcut
        have htrim : trim (mid ++ (" ENGINE = ".toList ++ engine)) = trimStart mid ++ (" ENGINE = ".toList ++ engine) :=
          trim_append hnone nofun fun d hd => (hname.1.getLast? _ d hd).1
        rw [← hcut, htrim] at hclause'
        exact hclause'
      exact absurd (eq_of_read_behind hfirst hsecond hnone (head?_trimStart mid) hread) hne

/-- A clause that is cut off at its place. -/
theorem parse_engineText_of_cuts {text : List Char} (h : IsEngineName engine) (hstart : StartsCreateTable text)
    (hcuts : CutsBeforeEngine (startsWithEngine engine) text) {create : SqlCreateTable} {name : String}
    {columns : List ColumnMeta} (hread : SqlParser.parseSql (trim text) = .ok [.createTable create])
    (hconvert : convertStatement uuidv7 (.createTable create) = .ok (.createTable name columns none)) :
    parse uuidv7 (engineText text engine) = pure [.createTable name columns (some (String.ofList engine))] := by
  obtain ⟨front, space, htext, hspace, hbytes⟩ := hcuts
  have hsplit : engineText (trimStart text) engine = front ++ (space ++ ("ENGINE = ".toList ++ engine)) := by
    rw [← List.append_assoc front, ← htext, List.append_assoc]
    rfl
  have hclause : trim (space ++ ("ENGINE = ".toList ++ engine)) = "ENGINE = ".toList ++ engine := by
    rw [← List.append_nil ("ENGINE = ".toList ++ engine), @trim_append_whitespace space [] hspace nofun, trim_clause h,
      List.append_nil]
  have hfront : trim front = trim text := by
    have hleft : trim (trimStart text ++ [' ']) = trim (trimStart text) :=
      @trim_append_whitespace [] [' '] nofun (by decide) (trimStart text)
    have hright : trim (front ++ space) = trim front := @trim_append_whitespace [] space nofun hspace front
    rw [← hright, ← htext, hleft, trim, trimStart, List.dropWhile_idempotent, trim]
  rw [parse_engineText uuidv7 h hstart, parseCreateTableWithEngine_eq_pure_iff,
    trim_trimSemicolons_engineText h hstart.ne_nil]
  refine ⟨byteLength front, front, space ++ ("ENGINE = ".toList ++ engine), String.ofList engine, [.createTable create],
    ?_, ?_, ?_, ?_, ?_, ?_⟩
  · rw [byteRfind_engineText h, hbytes]
  · rw [hsplit, uptoByte_byteLength]
  · rw [hsplit, fromByte_byteLength]
  · rw [hclause, parseEngineClause_engine h]
  · rw [hfront, hread]
  · rw [List.mapM_cons, hconvert]
    rfl

omit [SqlParser] in
/-- No converted statement names an engine. -/
theorem namesEngine_of_convertStatement {stmt : SqlStatement} {statement : HelionStatement}
    (h : convertStatement uuidv7 stmt = .ok statement) : statement.namesEngine = false := by
  cases stmt with
  | createTable create =>
      obtain ⟨columns, -, hcolumns⟩ := Loop.bind_ok_iff.mp h
      cases hcolumns
      rfl
  | explain =>
      cases h
      rfl
  | drop isTable =>
      rw [convertStatement] at h
      split at h
      · cases h
        rfl
      · cases h
  | insert insert =>
      obtain ⟨name, values, row, -, -, -, rfl⟩ := convertInsert_ok_iff.mp h
      rfl
  | query query =>
      rw [convertStatement, convertQuery] at h
      split at h
      next select hbody =>
        cases hselect : convertSelect query select with
        | error err =>
            rw [hselect] at h
            cases h
        | ok converted =>
            rw [hselect] at h
            cases h
            rfl
      next => cases h
  | update update =>
      obtain ⟨assignments, -, rfl⟩ := convertUpdate_ok_iff.mp h
      rfl
  | delete =>
      cases h
      rfl
  | other => cases h

/-- A statement that `sqlparser` reads is given where the text looks like none with an ENGINE clause. -/
theorem parse_converted_iff {text : List Char} {stmt : SqlStatement} {statement : HelionStatement}
    (hparsed : SqlParser.parseSql text = .ok [stmt])
    (htable : startsWith "CREATE TABLE ".toList (upperText (trim text)) = true → ∃ create, stmt = .createTable create)
    (hconvert : convertStatement uuidv7 stmt = .ok statement) :
    parse uuidv7 text = pure [statement] ↔
      looksLikeCreateTableWithEngine (trim text) = false ∧ looksLikeAlterTableEngine (trim text) = false := by
  have hengine := namesEngine_of_convertStatement uuidv7 hconvert
  rw [parse]
  cases hcreate : looksLikeCreateTableWithEngine (trim text) with
  | true =>
      refine iff_of_false (fun h => ?_) fun h => Bool.noConfusion h.1
      rw [if_pos rfl] at h
      rw [looksLikeCreateTableWithEngine, Bool.and_eq_true] at hcreate
      obtain ⟨create, rfl⟩ := htable hcreate.1
      obtain ⟨columns, -, hcolumns⟩ := Loop.bind_ok_iff.mp hconvert
      obtain ⟨_, _, _, engine, _, -, -, -, -, -, hstatements⟩ := (parseCreateTableWithEngine_eq_pure_iff uuidv7).mp h
      obtain ⟨other, -, hother⟩ := Loop.exists_of_mapM_ok hstatements (List.mem_singleton_self _)
      cases hstatement : convertStatement uuidv7 other with
      | error err =>
          rw [hstatement] at hother
          cases hother
      | ok converted =>
          rw [hstatement, ← Except.ok.inj hcolumns] at hother
          cases (setEngine_eq_createTable (Except.ok.inj hother)).1
  | false =>
      cases looksLikeAlterTableEngine (trim text) with
      | true =>
          refine iff_of_false (fun h => ?_) fun h => Bool.noConfusion h.2
          rw [if_neg Bool.false_ne_true, if_pos rfl] at h
          obtain ⟨table, engine, hstatement⟩ := yields_parseAlterTableEngine _ _ h
          rw [(List.cons.inj hstatement).1] at hengine
          cases hengine
      | false =>
          refine iff_of_true ?_ ⟨rfl, rfl⟩
          rw [if_neg Bool.false_ne_true, if_neg Bool.false_ne_true, hparsed]
          dsimp only
          rw [List.mapM_cons, hconvert]
          rfl

/-- A table with an engine is read only where the text starts with CREATE TABLE. -/
theorem startsCreateTable_of_parse {text : List Char} (h : IsEngineName engine) {name : String} {columns : List ColumnMeta}
    (hparse : parse uuidv7 (engineText text engine) = pure [.createTable name columns (some (String.ofList engine))]) :
    StartsCreateTable text := by
  by_contra hstart
  obtain ⟨front, hfront, hkeyword⟩ : ∃ front, trim (engineText text engine) = front ++ engine ∧
      startsWith "CREATE TABLE ".toList (upperText (trim (engineText text engine))) = false := by
    by_cases hne : trimStart text = []
    · have hblank : trim (engineText text engine) = "ENGINE = ".toList ++ engine := by
        rw [engineText, ← List.append_nil (" ENGINE = ".toList ++ engine),
          @trim_append_whitespace text [] (List.dropWhile_eq_nil_iff.mp hne) nofun]
        exact (trim_cons rfl _).trans (trim_clause h)
      refine ⟨"ENGINE = ".toList, hblank, ?_⟩
      rw [hblank, upperText_append, upperText_ascii (by decide), ← Bool.not_eq_true, startsWith_iff]
      rintro ⟨more, hmore⟩
      cases hmore
    · refine ⟨trimStart text ++ " ENGINE = ".toList, ?_, ?_⟩
      · rw [trim_engineText h hne, engineText, List.append_assoc]
      · rw [trim_engineText h hne, ← Bool.not_eq_true]
        exact fun hkeyword => hstart (startsWith_engineText_iff.mp hkeyword)
  have hclosed : trimSemicolons (trim (engineText text engine)) = trim (engineText text engine) := by
    rw [hfront]
    exact trimSemicolons_eq_self fun c hc => (h.getLast? front c hc).2
  have hcustom : parseCustom uuidv7 (engineText text engine) ≠
      pure [.createTable name columns (some (String.ofList engine))] := by
    intro hcustom
    have hnone : ∀ statements, IsOwn statements → ∀ statement ∈ statements, statement.isCreateTable = false := by
      rintro _ ⟨own, rfl, hown⟩ statement hstatement
      rw [List.mem_singleton.mp hstatement]
      exact hown
    have htrim : trim (trim (engineText text engine)) = trim (engineText text engine) :=
      trim_eq_self (head?_trim _) (getLast?_trim _)
    have htable :=
      yields_parseCustom uuidv7 hnone (by rw [hclosed, trim_upperText, htrim, hkeyword]) (yields_parseExplain _)
      _ hcustom _ (List.mem_singleton_self _)
    cases htable
  rw [parse, looksLikeCreateTableWithEngine, hkeyword, Bool.false_and, if_neg Bool.false_ne_true] at hparse
  cases halter : looksLikeAlterTableEngine (trim (engineText text engine)) with
  | true =>
      rw [halter, if_pos rfl] at hparse
      obtain ⟨table, other, hstatement⟩ := yields_parseAlterTableEngine _ _ hparse
      cases (List.cons.inj hstatement).1
  | false =>
      rw [halter, if_neg Bool.false_ne_true] at hparse
      cases hparsed : SqlParser.parseSql (engineText text engine) with
      | error err =>
          rw [hparsed] at hparse
          exact hcustom hparse
      | ok parsed =>
          rw [hparsed] at hparse
          dsimp only at hparse
          cases hconverted : parsed.mapM (convertStatement uuidv7) with
          | error err =>
              rw [hconverted] at hparse
              exact hcustom hparse
          | ok result =>
              rw [hconverted] at hparse
              obtain rfl := pure_inj hparse
              obtain ⟨stmt, -, hstmt⟩ := Loop.exists_of_mapM_ok hconverted (List.mem_singleton_self _)
              cases namesEngine_of_convertStatement uuidv7 hstmt

/-! ### The condition -/

/-- A text gives the columns that `sqlparser` reports and no engine, and the same table with any engine of a kind of names
that a clause behind it names. -/
def EngineApart (text : List Char) (create : SqlCreateTable) (named : Bool) : Prop :=
  ∃ columns, convertStatement uuidv7 (.createTable create) = .ok (.createTable create.name columns none) ∧
    parse uuidv7 text = pure [.createTable create.name columns none] ∧
    ∀ engine, IsEngineName engine → startsWithEngine engine = named →
      parse uuidv7 (engineText text engine) = pure [.createTable create.name columns (some (String.ofList engine))]

omit [Rendering] [SqlExprText] [SqlTableText] [SqlParser] in
/-- There are two names of each kind. -/
theorem exists_engineNames (named : Bool) :
    ∃ first second, IsEngineName first ∧ IsEngineName second ∧ first ≠ second ∧ startsWithEngine first = named ∧
      startsWithEngine second = named := by
  have hkind {name : List Char} (hascii : ∀ c ∈ name, c.toNat < 128) :
      startsWithEngine name = startsWith "ENGINE".toList (name.map Char.toUpper) := by
    rw [startsWithEngine, upperText_ascii hascii]
  cases named with
  | false => exact ⟨['a'], ['b'], by decide, by decide, by decide, hkind (by decide), hkind (by decide)⟩
  | true =>
      exact ⟨"ENGINEa".toList, "ENGINEb".toList, by decide, by decide, by decide, hkind (by decide), hkind (by decide)⟩

/-- The ENGINE clause is apart from the rest just where the text starts with CREATE TABLE and single spaces, has no other
ENGINE behind a space, has columns of known types, and is cut in the white space before the clause. -/
theorem engineApart_iff {text : List Char} {create : SqlCreateTable}
    (hspace : ∀ sql statements, SqlParser.parseSql sql = .ok statements → SqlParser.parseSql (trim sql) = .ok statements)
    (hparsed : SqlParser.parseSql text = .ok [.createTable create]) (named : Bool) :
    EngineApart uuidv7 text create named ↔
      StartsCreateTable text ∧ ¬ " ENGINE".toList <:+: upperText (trim text) ∧
        (∃ columns, create.columns.mapM convertColumnDef = .ok columns) ∧ CutsBeforeEngine named text := by
  constructor
  · rintro ⟨columns, hconvert, hplain, hclause⟩
    obtain ⟨first, second, hfirst, hsecond, hne, hkind, hkind'⟩ := exists_engineNames named
    have hstart := startsCreateTable_of_parse uuidv7 hfirst (hclause first hfirst hkind)
    refine ⟨hstart, fun hinside => ?_, ?_, ?_⟩
    · have hfront : upperText (trim text) <+: upperText (trimStart text ++ [' ']) :=
        upperText_isPrefix ((List.rdropWhile_prefix isWhitespace _).trans (List.prefix_append _ _))
      have hkeyword := prefix_of_not_infix hstart hfront hinside (by decide)
      have hlooks := ((parse_converted_iff uuidv7 hparsed (fun _ => ⟨create, rfl⟩) hconvert).mp hplain).1
      rw [looksLikeCreateTableWithEngine, startsWith_iff.mpr hkeyword, containsText_iff.mpr hinside] at hlooks
      cases hlooks
    · obtain ⟨metas, hmetas, -⟩ := Loop.bind_ok_iff.mp hconvert
      exact ⟨metas, hmetas⟩
    · rw [← hkind]
      have hread : ∀ engine ∈ [first, second],
          parse uuidv7 (engineText text engine) = pure [.createTable create.name columns (some (String.ofList engine))] := by
        intro engine hengine
        rcases List.mem_cons.mp hengine with rfl | hengine
        · exact hclause engine hfirst hkind
        · obtain rfl := List.mem_singleton.mp hengine
          exact hclause engine hsecond hkind'
      exact cutsBeforeEngine_of_parse uuidv7 hfirst hsecond hne (hkind'.trans hkind.symm) hstart hread
  · rintro ⟨hstart, hinside, ⟨metas, hmetas⟩, hcuts⟩
    have hconvert : convertStatement uuidv7 (.createTable create) =
        .ok (.createTable create.name (create.constraints.foldl applyTableConstraint metas) none) :=
      Loop.bind_ok_iff.mpr ⟨metas, hmetas, rfl⟩
    have hlooks : containsText " ENGINE".toList (upperText (trim text)) = false := by
      rw [← Bool.not_eq_true, containsText_iff]
      exact hinside
    refine ⟨_, hconvert, (parse_converted_iff uuidv7 hparsed (fun _ => ⟨create, rfl⟩) hconvert).mpr ⟨?_, ?_⟩,
      fun engine h hkind => ?_⟩
    · rw [looksLikeCreateTableWithEngine, hlooks, Bool.and_false]
    · rw [looksLikeAlterTableEngine, hlooks, Bool.and_false]
    · exact parse_engineText_of_cuts uuidv7 h hstart (hkind ▸ hcuts) (hspace text _ hparsed) hconvert

end

end

namespace EngineTables

/-- A table with one column. -/
def create (name : String) : SqlCreateTable where
  name := name
  columns := [{ name := "a", dataType := .int, options := [] }]
  constraints := []

/-- A stand-in that reads two statements. -/
scoped instance (priority := 2000) sqlParser : SqlParser where
  parseSql sql :=
    if trim sql = "CREATE TABLE t (a INT)".toList then .ok [.createTable (create "t")]
    else if trim sql = "CREATE TABLE engines (a INT)".toList then .ok [.createTable (create "engines")]
    else .error "sql parser error"
  debug _ := "statement"

open AsciiCase PlainText

theorem engineApart_plain : EngineApart 0 "CREATE TABLE t (a INT)".toList (create "t") false := by
  refine (engineApart_iff 0 (fun sql statements h => ?_) rfl false).mpr ⟨?_, ?_, ⟨_, rfl⟩, ?_⟩
  · have htrim : trim (trim sql) = trim sql := trim_eq_self (head?_trim sql) (getLast?_trim sql)
    show (if trim (trim sql) = _ then _ else _) = _
    rw [htrim]
    exact h
  · exact List.isPrefixOf_iff_prefix.mp rfl
  · rw [← containsText_iff]
    exact Bool.false_ne_true
  · exact ⟨"CREATE TABLE t (a INT)".toList, [' '], rfl, by decide, rfl⟩

/-- The name of the table is taken for the clause. -/
theorem not_engineApart :
    SqlParser.parseSql "CREATE TABLE engines (a INT)".toList = .ok [.createTable (create "engines")] ∧
      parse 0 "CREATE TABLE engines (a INT)".toList = throw (.parse "sql parser error") :=
  ⟨rfl, rfl⟩

end EngineTables

end HelionDb
