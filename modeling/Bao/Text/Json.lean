import Mathlib

/-!
# JSON texts

Values, the tokens of a value, and the texts that spell a list of tokens. Fractional numbers, `\u`
escapes and the literals have no spelling here: `Denotes` covers the texts of the other tokens.

* **Writing.** The spellings are built from the end of a text: every rule puts a token, or a blank,
  in front of a text that is spelled already (`Lexes`).
* **Reading.** `parse` is a scanner with a recursive descent behind it. It reads every text that
  denotes a value as that value (`reads_parse`).
-/

namespace Bao.Text.Json

/-! ### Values -/

/-- A value. Numbers are unsigned, negative, or neither of an integer of 64 bits; the members of an
object are in the order of the text. -/
inductive Value
  | null
  | bool (b : Bool)
  | unsigned (n : ℕ)
  | integer (z : ℤ)
  | float (lexeme : String)
  | string (s : String)
  | array (elements : List Value)
  | object (members : List (String × Value))

namespace Value

/-- An integer as a value. -/
def int : ℤ → Value
  | .ofNat n => .unsigned n
  | .negSucc n => .integer (.negSucc n)

/-- The member of an object with a given key; of several with that key the last one counts. -/
def get? : Value → String → Option Value
  | .object members, key => members.reverse.lookup key
  | _, _ => none

/-- The members of an object in the order of their keys, one for each key. -/
def items : Value → List (String × Value)
  | .object members =>
    (members.pwFilter fun a b => a.1 ≠ b.1).mergeSort fun a b => decide (a.1 ≤ b.1)
  | _ => []

end Value

/-! ### Tokens -/

inductive Token
  | lbrace
  | rbrace
  | lbracket
  | rbracket
  | colon
  | comma
  | null
  | bool (b : Bool)
  | unsigned (n : ℕ)
  | integer (z : ℤ)
  | float (lexeme : String)
  | string (s : String)
  deriving DecidableEq

mutual

/-- The tokens of a value. -/
def Value.tokens : Value → List Token
  | .null => [.null]
  | .bool b => [.bool b]
  | .unsigned n => [.unsigned n]
  | .integer z => [.integer z]
  | .float lexeme => [.float lexeme]
  | .string s => [.string s]
  | .array [] => [.lbracket, .rbracket]
  | .array (v :: vs) => .lbracket :: (v.tokens ++ elementsTail vs)
  | .object [] => [.lbrace, .rbrace]
  | .object ((key, v) :: ms) => .lbrace :: .string key :: .colon :: (v.tokens ++ membersTail ms)

/-- The tokens of an array behind its first element. -/
def elementsTail : List Value → List Token
  | [] => [.rbracket]
  | v :: vs => .comma :: (v.tokens ++ elementsTail vs)

/-- The tokens of an object behind its first member. -/
def membersTail : List (String × Value) → List Token
  | [] => [.rbrace]
  | (key, v) :: ms => .comma :: .string key :: .colon :: (v.tokens ++ membersTail ms)

end

/-- A member of an object. -/
def memberTokens (m : String × Value) : List Token := .string m.1 :: .colon :: m.2.tokens

/-- Tokens with commas between them. -/
def separated : List (List Token) → List Token
  | [] => []
  | [ks] => ks
  | ks :: ks' :: l => ks ++ .comma :: separated (ks' :: l)

theorem separated_elements (v : Value) (vs : List Value) :
    separated ((v :: vs).map Value.tokens) ++ [.rbracket] = v.tokens ++ elementsTail vs := by
  induction vs generalizing v with
  | nil => rfl
  | cons w vs ih =>
    have h := ih w
    simp only [List.map_cons] at h
    simp [separated, elementsTail, h]

theorem separated_members (m : String × Value) (ms : List (String × Value)) :
    separated ((m :: ms).map memberTokens) ++ [.rbrace] = memberTokens m ++ membersTail ms := by
  induction ms generalizing m with
  | nil => rfl
  | cons w ms ih =>
    have h := ih w
    simp only [List.map_cons] at h
    have hw : membersTail (w :: ms) = .comma :: (memberTokens w ++ membersTail ms) := rfl
    simp [separated, hw, h]

theorem tokens_array (vs : List Value) :
    (Value.array vs).tokens = .lbracket :: (separated (vs.map Value.tokens) ++ [.rbracket]) := by
  cases vs with
  | nil => rfl
  | cons v vs => rw [separated_elements, Value.tokens]

theorem tokens_object (ms : List (String × Value)) :
    (Value.object ms).tokens = .lbrace :: (separated (ms.map memberTokens) ++ [.rbrace]) := by
  cases ms with
  | nil => rfl
  | cons m ms => rw [separated_members]; simp [Value.tokens, memberTokens]

@[simp]
theorem tokens_string (s : String) : (Value.string s).tokens = [.string s] := rfl

/-! ### Members -/

theorem lookup_eq_some {α β : Type} [BEq α] [LawfulBEq α] {l : List (α × β)}
    (h : (l.map Prod.fst).Nodup) {a : α} {b : β} : l.lookup a = some b ↔ (a, b) ∈ l := by
  induction l with
  | nil => simp
  | cons p l ih =>
    obtain ⟨a', b'⟩ := p
    rw [List.map_cons, List.nodup_cons] at h
    by_cases hp : a = a'
    · subst hp
      have hnot : (a, b) ∉ l := fun hb => h.1 (List.mem_map.2 ⟨_, hb, rfl⟩)
      simp [hnot, eq_comm]
    · have hne : (a == a') = false := by simpa using hp
      simp [List.lookup_cons, hne, hp, ih h.2]

theorem lookup_eq_ite {α β : Type} [DecidableEq α] {l : List (α × β)} {a : α} {c : β} {P : Prop}
    [Decidable P] (h : ∀ x, (a, x) ∈ l ↔ P ∧ x = c) :
    l.lookup a = if P then some c else none := by
  cases hl : l.lookup a with
  | none =>
    rw [List.lookup_eq_none_iff] at hl
    rw [if_neg fun hP => bne_iff_ne.1 (hl (a, c) ((h c).2 ⟨hP, rfl⟩)) rfl]
  | some x =>
    obtain ⟨l₁, l₂, rfl, -⟩ := List.lookup_eq_some_iff.1 hl
    obtain ⟨hP, rfl⟩ := (h x).1 (by simp)
    rw [if_pos hP]

/-- Reading that succeeds on every element. -/
theorem mapM_eq_filterMap {α β : Type} {f : α → Option β} {l : List α}
    (h : ∀ a ∈ l, (f a).isSome = true) : l.mapM f = some (l.filterMap f) := by
  induction l with
  | nil => rfl
  | cons a l ih =>
    rw [List.forall_mem_cons] at h
    obtain ⟨b, hb⟩ := Option.isSome_iff_exists.1 h.1
    simp [hb, ih h.2]

namespace Value

theorem get?_object {ms : List (String × Value)} (h : (ms.map Prod.fst).Nodup) {key : String}
    {v : Value} : (object ms).get? key = some v ↔ (key, v) ∈ ms := by
  rw [get?, lookup_eq_some (by simpa [List.map_reverse] using h), List.mem_reverse]

theorem get?_object_eq_none {ms : List (String × Value)} {key : String}
    (h : key ∉ ms.map Prod.fst) : (object ms).get? key = none := by
  simp only [List.mem_map, not_exists, not_and] at h
  rw [get?, List.lookup_eq_none_iff]
  intro m hm
  exact bne_iff_ne.2 fun hk => h m (List.mem_reverse.1 hm) hk.symm

theorem items_object_perm {ms : List (String × Value)} (h : (ms.map Prod.fst).Nodup) :
    (object ms).items.Perm ms := by
  have hkeep : (ms.pwFilter fun a b => a.1 ≠ b.1) = ms := by
    rw [List.pwFilter_eq_self]
    exact List.pairwise_map.1 h
  rw [items, hkeep]
  exact List.mergeSort_perm _ _

/-- Members in the order of their keys stay where they are. -/
theorem items_object_of_sorted {ms : List (String × Value)} (h : (ms.map Prod.fst).Nodup)
    (hsorted : ms.Pairwise fun a b => decide (a.1 ≤ b.1) = true) : (object ms).items = ms := by
  have hkeep : (ms.pwFilter fun a b => a.1 ≠ b.1) = ms := by
    rw [List.pwFilter_eq_self]
    exact List.pairwise_map.1 h
  rw [items, hkeep, List.mergeSort_of_pairwise hsorted]

/-- Reading the members of an object one by one. -/
theorem mapM_items_object {α β : Type} {l : List α} {m : α → String × Value} {g : α → β}
    {f : String × Value → Option β} (h : (l.map fun a => (m a).1).Nodup)
    (hf : ∀ a ∈ l, f (m a) = some (g a)) :
    ∃ l', (object (l.map m)).items.mapM f = some l' ∧ l'.Perm (l.map g) := by
  have hnodup : ((l.map m).map Prod.fst).Nodup := by rwa [List.map_map]
  have hperm := items_object_perm hnodup
  refine ⟨_, mapM_eq_filterMap fun _ hm => ?_, ?_⟩
  · obtain ⟨a, ha, rfl⟩ := List.mem_map.mp (hperm.mem_iff.mp hm)
    rw [hf a ha, Option.isSome_some]
  · refine (hperm.filterMap f).trans (List.Perm.of_eq ?_)
    rw [List.filterMap_map, ← List.filterMap_eq_map]
    exact List.filterMap_congr hf

end Value

/-! ### Spellings -/

/-- A blank between tokens. -/
def isSpace (c : Char) : Bool := c = ' ' || c = '\n' || c = '\t' || c = '\r'

/-- The tokens that are one character. -/
def punctuation (c : Char) : Option Token :=
  if c = '{' then some .lbrace
  else if c = '}' then some .rbrace
  else if c = '[' then some .lbracket
  else if c = ']' then some .rbracket
  else if c = ':' then some .colon
  else if c = ',' then some .comma
  else none

/-- The character an escape stands for. -/
def unescape (c : Char) : Option Char :=
  if c = '"' then some '"'
  else if c = '\\' then some '\\'
  else if c = 'n' then some '\n'
  else if c = 't' then some '\t'
  else none

/-- A character that stands for itself in a string. -/
def isPlain (c : Char) : Bool := 0x20 ≤ c.toNat && c != '"' && c != '\\'

/-- The characters between the quotes of a string. -/
inductive Quoted : List Char → List Char → Prop
  | nil : Quoted [] []
  | plain {c : Char} {text s : List Char} (hc : isPlain c = true) (h : Quoted text s) :
      Quoted (c :: text) (c :: s)
  | escape {e c : Char} {text s : List Char} (he : unescape e = some c) (h : Quoted text s) :
      Quoted ('\\' :: e :: text) (c :: s)

/-- A character that would continue a number. -/
def continuesNumber (c : Char) : Bool := c.isDigit || c = '.' || c = 'e' || c = 'E'

/-- The text does not continue a number. -/
def EndsNumber (text : List Char) : Prop := ∀ c ∈ text.head?, continuesNumber c = false

/-- **The texts that spell a list of tokens.** -/
inductive Lexes : List Char → List Token → Prop
  | nil : Lexes [] []
  | space {c : Char} {text : List Char} {ks : List Token} (hc : isSpace c = true)
      (h : Lexes text ks) : Lexes (c :: text) ks
  | punct {c : Char} {k : Token} {text : List Char} {ks : List Token}
      (hc : punctuation c = some k) (h : Lexes text ks) : Lexes (c :: text) (k :: ks)
  | string {body s text : List Char} {ks : List Token} (hs : Quoted body s) (h : Lexes text ks) :
      Lexes ('"' :: (body ++ '"' :: text)) (.string (.ofList s) :: ks)
  | unsigned {n : ℕ} {text : List Char} {ks : List Token} (hn : n < 2 ^ 64)
      (ht : EndsNumber text) (h : Lexes text ks) :
      Lexes (Nat.toDigits 10 n ++ text) (.unsigned n :: ks)
  | integer {n : ℕ} {text : List Char} {ks : List Token} (hn : n < 2 ^ 63)
      (ht : EndsNumber text) (h : Lexes text ks) :
      Lexes ('-' :: (Nat.toDigits 10 (n + 1) ++ text)) (.integer (.negSucc n) :: ks)

/-- **The text is a spelling of the value.** -/
def Denotes (text : List Char) (v : Value) : Prop := Lexes text v.tokens

/-- Reads every text that denotes a value as that value. -/
def Reads (parse : List Char → Option Value) : Prop :=
  ∀ ⦃text : List Char⦄ ⦃v : Value⦄, Denotes text v → parse text = some v

/-! ### Writing -/

/-- An integer in decimal. -/
def printInt : ℤ → List Char
  | .ofNat n => Nat.toDigits 10 n
  | .negSucc n => '-' :: Nat.toDigits 10 (n + 1)

theorem Lexes.int {z : ℤ} {text : List Char} {ks : List Token} (hlo : -2 ^ 63 ≤ z)
    (hhi : z < 2 ^ 64) (ht : EndsNumber text) (h : Lexes text ks) :
    Lexes (printInt z ++ text) ((Value.int z).tokens ++ ks) := by
  cases z with
  | ofNat n => exact .unsigned (Int.ofNat_lt.1 hhi) ht h
  | negSucc n => exact .integer (by omega) ht h

/-- **A piece of text that spells some tokens** in front of any text that is spelled. -/
def Spells (cs : List Char) (ks : List Token) : Prop :=
  ∀ ⦃text : List Char⦄ ⦃rest : List Token⦄, Lexes text rest → Lexes (cs ++ text) (ks ++ rest)

theorem Spells.append {cs cs' : List Char} {ks ks' : List Token} (h : Spells cs ks)
    (h' : Spells cs' ks') : Spells (cs ++ cs') (ks ++ ks') := by
  intro text rest ht
  rw [List.append_assoc, List.append_assoc]
  exact h (h' ht)

/-- One piece after the other. -/
theorem Spells.flatten {pieces : List (List Char)} {kss : List (List Token)}
    (h : List.Forall₂ Spells pieces kss) : Spells pieces.flatten kss.flatten := by
  induction h with
  | nil => exact fun _ _ ht => ht
  | cons hpiece _ ih => exact hpiece.append ih

/-- The tokens of a text of blanks and punctuation. -/
def marks : List Char → Option (List Token)
  | [] => some []
  | c :: cs => if isSpace c then marks cs else do
    let k ← punctuation c
    let ks ← marks cs
    some (k :: ks)

theorem Spells.marks {cs : List Char} {ks : List Token} (h : Json.marks cs = some ks) :
    Spells cs ks := by
  intro text rest ht
  induction cs generalizing ks with
  | nil => cases h; exact ht
  | cons c cs ih =>
    rw [Json.marks] at h
    split_ifs at h with hc
    · exact .space hc (ih h)
    · obtain ⟨k, hk, h⟩ := Option.bind_eq_some_iff.1 h
      obtain ⟨ks', hks, h⟩ := Option.bind_eq_some_iff.1 h
      cases h
      exact .punct hk (ih hks)

/-- A number up to the character behind it. -/
theorem Spells.int {z : ℤ} {cs : List Char} {ks : List Token} (hlo : -2 ^ 63 ≤ z)
    (hhi : z < 2 ^ 64) (hne : cs ≠ []) (ht : EndsNumber cs) (h : Spells cs ks) :
    Spells (printInt z ++ cs) ((Value.int z).tokens ++ ks) := by
  intro text rest hl
  rw [List.append_assoc, List.append_assoc]
  refine Lexes.int hlo hhi ?_ (h hl)
  obtain ⟨c, cs, rfl⟩ := List.exists_cons_of_ne_nil hne
  exact ht

/-! ### A parser -/

/-- Where the scanner is. -/
inductive Scan
  | between
  | string (s : List Char)
  | escape (s : List Char)
  | minus
  | number (negative : Bool) (n : ℕ)

/-- The token of a number, if 64 bits hold it. -/
def numberToken (negative : Bool) (n : ℕ) : Option Token :=
  if negative then if n ≤ 2 ^ 63 then some (.integer (-n)) else none
  else if n < 2 ^ 64 then some (.unsigned n) else none

/-- One character between two tokens. -/
def scanBetween (c : Char) : Option (List Token × Scan) :=
  if isSpace c then some ([], .between)
  else if c = '"' then some ([], .string [])
  else if c = '-' then some ([], .minus)
  else if c.isDigit then some ([], .number false (c.toNat - '0'.toNat))
  else (punctuation c).map fun k => ([k], .between)

/-- One character. -/
def scan (c : Char) : Scan → Option (List Token × Scan)
  | .between => scanBetween c
  | .string s =>
    if c = '"' then some ([.string (.ofList s)], .between)
    else if c = '\\' then some ([], .escape s)
    else if isPlain c then some ([], .string (s ++ [c]))
    else none
  | .escape s => (unescape c).map fun e => ([], .string (s ++ [e]))
  | .minus => if c.isDigit then some ([], .number true (c.toNat - '0'.toNat)) else none
  | .number negative n =>
    if c.isDigit then some ([], .number negative (10 * n + (c.toNat - '0'.toNat)))
    else if continuesNumber c then none
    else do
      let k ← numberToken negative n
      let (ks, st) ← scanBetween c
      some (k :: ks, st)

/-- The tokens of a text. -/
def lexFrom : Scan → List Char → Option (List Token)
  | .between, [] => some []
  | .number negative n, [] => (numberToken negative n).map fun k => [k]
  | _, [] => none
  | st, c :: text => do
    let (ks, st) ← scan c st
    let ks' ← lexFrom st text
    some (ks ++ ks')

mutual

/-- A value at the front of the tokens. -/
def parseValue : ℕ → List Token → Option (Value × List Token)
  | _ + 1, .null :: ts => some (.null, ts)
  | _ + 1, .bool b :: ts => some (.bool b, ts)
  | _ + 1, .unsigned n :: ts => some (.unsigned n, ts)
  | _ + 1, .integer z :: ts => some (.integer z, ts)
  | _ + 1, .float lexeme :: ts => some (.float lexeme, ts)
  | _ + 1, .string s :: ts => some (.string s, ts)
  | fuel + 1, .lbracket :: ts =>
    if ts.head? = some .rbracket then some (.array [], ts.tail)
    else do
      let (v, ts) ← parseValue fuel ts
      let (vs, ts) ← parseElements fuel ts
      some (.array (v :: vs), ts)
  | fuel + 1, .lbrace :: ts =>
    if ts.head? = some .rbrace then some (.object [], ts.tail)
    else do
      let (m, ts) ← parseMember fuel ts
      let (ms, ts) ← parseMembers fuel ts
      some (.object (m :: ms), ts)
  | _, _ => none

/-- The elements of an array behind the first one. -/
def parseElements : ℕ → List Token → Option (List Value × List Token)
  | _ + 1, .rbracket :: ts => some ([], ts)
  | fuel + 1, .comma :: ts => do
    let (v, ts) ← parseValue fuel ts
    let (vs, ts) ← parseElements fuel ts
    some (v :: vs, ts)
  | _, _ => none

/-- A member of an object. -/
def parseMember : ℕ → List Token → Option ((String × Value) × List Token)
  | fuel + 1, .string key :: .colon :: ts => do
    let (v, ts) ← parseValue fuel ts
    some ((key, v), ts)
  | _, _ => none

/-- The members of an object behind the first one. -/
def parseMembers : ℕ → List Token → Option (List (String × Value) × List Token)
  | _ + 1, .rbrace :: ts => some ([], ts)
  | fuel + 1, .comma :: ts => do
    let (m, ts) ← parseMember fuel ts
    let (ms, ts) ← parseMembers fuel ts
    some (m :: ms, ts)
  | _, _ => none

end

/-- **A parser.** -/
def parse (text : List Char) : Option Value := do
  let ks ← lexFrom .between text
  let (v, ts) ← parseValue ks.length ks
  if ts.isEmpty then some v else none

/-! ### The parser reads what is written -/

theorem lexFrom_string {body s : List Char} (h : Quoted body s) (done text : List Char) :
    lexFrom (.string done) (body ++ '"' :: text) =
      (lexFrom .between text).map (.string (.ofList (done ++ s)) :: ·) := by
  induction h generalizing done with
  | nil => cases h : lexFrom .between text <;> simp [lexFrom, scan, h]
  | plain hc _ ih =>
    have hne := hc
    simp only [isPlain, Bool.and_eq_true, bne_iff_ne, ne_eq, decide_eq_true_eq] at hne
    simp [lexFrom, scan, hne.1.2, hne.2, hc, ih]
  | escape he _ ih => simp [lexFrom, scan, he, ih]

theorem lexFrom_number {ds text : List Char} (hds : ∀ c ∈ ds, c.isDigit = true)
    (ht : EndsNumber text) (negative : Bool) (n : ℕ) :
    lexFrom (.number negative n) (ds ++ text) =
      (numberToken negative (Nat.ofDigitChars 10 ds n)).bind fun k =>
        (lexFrom .between text).map (k :: ·) := by
  induction ds generalizing n with
  | nil =>
    cases text with
    | nil => cases h : numberToken negative n <;> simp [lexFrom, h]
    | cons c text =>
      have hc : continuesNumber c = false := ht c rfl
      have hdigit : c.isDigit = false := by
        simp only [continuesNumber, Bool.or_eq_false_iff] at hc
        exact hc.1.1.1
      cases hk : numberToken negative n with
      | none => simp [lexFrom, scan, hc, hdigit, hk]
      | some k =>
        cases hb : scanBetween c with
        | none => simp [lexFrom, scan, hc, hdigit, hk, hb]
        | some p =>
          cases hl : lexFrom p.2 text <;> simp [lexFrom, scan, hc, hdigit, hk, hb, hl]
  | cons d ds ih =>
    rw [List.forall_mem_cons] at hds
    simp [lexFrom, scan, hds.1, ih hds.2, Nat.ofDigitChars_cons]

theorem scanBetween_digit {c : Char} (h : c.isDigit = true) :
    scanBetween c = some ([], .number false (c.toNat - '0'.toNat)) := by
  have hne : ∀ d : Char, d.isDigit = false → c ≠ d := fun d hd hcd => by simp [← hcd, h] at hd
  simp [scanBetween, isSpace, h, hne]

theorem scanBetween_punct {c : Char} {k : Token} (h : punctuation c = some k) :
    scanBetween c = some ([k], .between) := by
  rw [punctuation] at h
  split_ifs at h <;> (subst c; cases h; rfl)

theorem numberToken_unsigned {n : ℕ} (hn : n < 2 ^ 64) :
    numberToken false n = some (.unsigned n) := by
  rw [numberToken, if_neg (by decide), if_pos hn]

theorem numberToken_negSucc {n : ℕ} (hn : n < 2 ^ 63) :
    numberToken true (n + 1) = some (.integer (.negSucc n)) := by
  rw [numberToken, if_pos rfl, if_pos (Nat.succ_le_of_lt hn), Int.negSucc_eq]
  rfl

/-- The decimal digits of a number. -/
theorem exists_toDigits (n : ℕ) : ∃ d ds, Nat.toDigits 10 n = d :: ds ∧ d.isDigit = true ∧
    (∀ c ∈ ds, c.isDigit = true) ∧ Nat.ofDigitChars 10 ds (d.toNat - 48) = n := by
  have hdigits : ∀ c ∈ Nat.toDigits 10 n, c.isDigit = true := fun c hc =>
    Nat.isDigit_of_mem_toDigits (by decide) (by decide) hc
  have hvalue : Nat.ofDigitChars 10 (Nat.toDigits 10 n) 0 = n := Nat.ofDigitChars_ten_toDigits
  cases hd : Nat.toDigits 10 n with
  | nil => exact absurd hd Nat.toDigits_ne_nil
  | cons d ds =>
    rw [hd, List.forall_mem_cons] at hdigits
    rw [hd, Nat.ofDigitChars_cons, Nat.mul_zero, Nat.zero_add] at hvalue
    exact ⟨d, ds, rfl, hdigits.1, hdigits.2, hvalue⟩

theorem lexFrom_of_lexes {text : List Char} {ks : List Token} (h : Lexes text ks) :
    lexFrom .between text = some ks := by
  induction h with
  | nil => rfl
  | space hc _ ih => simp [lexFrom, scan, scanBetween, hc, ih]
  | punct hc _ ih => simp [lexFrom, scan, scanBetween_punct hc, ih]
  | string hs _ ih => simp [lexFrom, scan, scanBetween, isSpace, lexFrom_string hs, ih]
  | @unsigned n text ks hn ht _ ih =>
    obtain ⟨d, ds, hd, hdigit, hdigits, hvalue⟩ := exists_toDigits n
    rw [hd]
    simp [lexFrom, scan, scanBetween_digit hdigit, lexFrom_number hdigits ht, hvalue,
      numberToken_unsigned hn, ih]
  | @integer n text ks hn ht _ ih =>
    obtain ⟨d, ds, hd, hdigit, hdigits, hvalue⟩ := exists_toDigits (n + 1)
    have hminus : scanBetween '-' = some ([], .minus) := rfl
    rw [hd]
    simp [lexFrom, scan, hminus, hdigit, lexFrom_number hdigits ht, hvalue,
      numberToken_negSucc hn, ih]

/-- No value begins like the end of an array. -/
theorem head_tokens (v : Value) : v.tokens ≠ [] ∧ v.tokens.head? ≠ some .rbracket := by
  cases v with
  | array vs => cases vs <;> simp [Value.tokens]
  | object ms =>
    cases ms with
    | nil => simp [Value.tokens]
    | cons m ms => obtain ⟨key, v⟩ := m; simp [Value.tokens]
  | _ => simp [Value.tokens]

mutual

/-- A fuel of one for each token is enough. -/
theorem parseValue_tokens (v : Value) (rest : List Token) (fuel : ℕ)
    (hfuel : v.tokens.length ≤ fuel) : parseValue fuel (v.tokens ++ rest) = some (v, rest) := by
  match v, fuel with
  | .null, 0 | .bool _, 0 | .unsigned _, 0 | .integer _, 0 | .float _, 0 | .string _, 0 =>
    simp [Value.tokens] at hfuel
  | .array [], 0 | .array (_ :: _), 0 | .object [], 0 | .object (_ :: _), 0 =>
    simp [Value.tokens] at hfuel
  | .null, _ + 1 | .bool _, _ + 1 | .unsigned _, _ + 1 | .integer _, _ + 1 => rfl
  | .float _, _ + 1 | .string _, _ + 1 | .array [], _ + 1 | .object [], _ + 1 => rfl
  | .array (v :: vs), fuel + 1 =>
    simp only [Value.tokens, List.length_cons, List.length_append] at hfuel
    obtain ⟨hne, hhead⟩ := head_tokens v
    simp [Value.tokens, parseValue, hne, hhead, parseValue_tokens v (elementsTail vs ++ rest) fuel
      (by omega), parseElements_tail vs rest fuel (by omega)]
  | .object ((key, v) :: ms), fuel + 1 =>
    simp only [Value.tokens, List.length_cons, List.length_append] at hfuel
    simp [Value.tokens, parseValue, parseMember_tokens key v (membersTail ms ++ rest) fuel
      (by omega), parseMembers_tail ms rest fuel (by omega)]

theorem parseElements_tail (vs : List Value) (rest : List Token) (fuel : ℕ)
    (hfuel : (elementsTail vs).length ≤ fuel) :
    parseElements fuel (elementsTail vs ++ rest) = some (vs, rest) := by
  match vs, fuel with
  | [], 0 | _ :: _, 0 => simp [elementsTail] at hfuel
  | [], _ + 1 => rfl
  | v :: vs, fuel + 1 =>
    simp only [elementsTail, List.length_cons, List.length_append] at hfuel
    simp [elementsTail, parseElements, parseValue_tokens v (elementsTail vs ++ rest) fuel
      (by omega), parseElements_tail vs rest fuel (by omega)]

theorem parseMember_tokens (key : String) (v : Value) (rest : List Token) (fuel : ℕ)
    (hfuel : v.tokens.length + 2 ≤ fuel) :
    parseMember fuel (.string key :: .colon :: (v.tokens ++ rest)) = some ((key, v), rest) := by
  match fuel with
  | 0 => omega
  | fuel + 1 => simp [parseMember, parseValue_tokens v rest fuel (by omega)]

theorem parseMembers_tail (ms : List (String × Value)) (rest : List Token) (fuel : ℕ)
    (hfuel : (membersTail ms).length ≤ fuel) :
    parseMembers fuel (membersTail ms ++ rest) = some (ms, rest) := by
  match ms, fuel with
  | [], 0 | _ :: _, 0 => simp [membersTail] at hfuel
  | [], _ + 1 => rfl
  | (key, v) :: ms, fuel + 1 =>
    simp only [membersTail, List.length_cons, List.length_append] at hfuel
    simp [membersTail, parseMembers, parseMember_tokens key v (membersTail ms ++ rest) fuel
      (by omega), parseMembers_tail ms rest fuel (by omega)]

end

/-- **The parser reads every text that denotes a value.** -/
theorem reads_parse : Reads parse := by
  intro text v h
  have hvalue := parseValue_tokens v [] _ (le_refl v.tokens.length)
  rw [List.append_nil] at hvalue
  simp [parse, lexFrom_of_lexes h, hvalue]

end Bao.Text.Json
