/-
# Compact JSON

A JSON text as a tree: an object is its fields in the order of the text, and a number is the text that
writes it.  `print` writes a tree without blanks, `parse` reads what `print` writes, and a tree is read back
as it was (`parse_print`).  A string's control characters are escaped, so a printed tree has no line break
(`newline_notMem_print`).

A record is written as an object whose absent fields are left out (`present`), and each of its fields is
read back by its name (`member_present`).
-/
import AlSem.Lib.Utf8
import Mathlib.Data.List.Nodup
import Mathlib.Data.List.TakeWhile

namespace JsonText

def isNumberChar (c : Char) : Bool :=
  c.isDigit || c = '-' || c = '+' || c = '.' || c = 'e' || c = 'E'

/-- The text of a number. -/
structure NumberText where
  chars : List Char
  nonempty : chars ≠ []
  numeric : ∀ c ∈ chars, isNumberChar c = true
  deriving DecidableEq

end JsonText

/-- The tree of a JSON text. -/
inductive Json where
  | null
  | bool (b : Bool)
  | number (n : JsonText.NumberText)
  | string (s : String)
  | array (xs : List Json)
  | object (fields : List (String × Json))

namespace JsonText

/-! ## 1. Trees and their texts -/

/-- A hexadecimal digit. -/
def hexDigit (n : ℕ) : Char := Nat.digitChar (n % 16)

/-- How a character stands in a string. -/
def escape (c : Char) : List Char :=
  if c = '"' then ['\\', '"']
  else if c = '\\' then ['\\', '\\']
  else if c = '\n' then ['\\', 'n']
  else if c = '\r' then ['\\', 'r']
  else if c = '\t' then ['\\', 't']
  else if c = '\x08' then ['\\', 'b']
  else if c = '\x0c' then ['\\', 'f']
  else if c.toNat < 32 then ['\\', 'u', '0', '0', hexDigit (c.toNat / 16), hexDigit c.toNat]
  else [c]

/-- A string in quotes. -/
def quote (cs : List Char) : List Char := '"' :: (cs.flatMap escape ++ ['"'])

/-- Items with commas between them, up to the closing bracket. -/
def items (close : Char) : List (List Char) → List Char
  | [] => [close]
  | [x] => x ++ [close]
  | x :: y :: rest => x ++ ',' :: items close (y :: rest)

mutual

/-- **The text of a tree.** -/
def print : Json → List Char
  | .null => ['n', 'u', 'l', 'l']
  | .bool true => ['t', 'r', 'u', 'e']
  | .bool false => ['f', 'a', 'l', 's', 'e']
  | .number n => n.chars
  | .string s => quote s.toList
  | .array xs => '[' :: items ']' (printElements xs)
  | .object fields => '{' :: items '}' (printFields fields)

def printElements : List Json → List (List Char)
  | [] => []
  | x :: xs => print x :: printElements xs

def printFields : List (String × Json) → List (List Char)
  | [] => []
  | (k, v) :: fields => (quote k.toList ++ ':' :: print v) :: printFields fields

end

/-- The text of an object's field. -/
def printField (f : String × Json) : List Char := quote f.1.toList ++ ':' :: print f.2

theorem printElements_eq : ∀ xs, printElements xs = xs.map print
  | [] => rfl
  | x :: xs => by rw [printElements, printElements_eq xs]; rfl

theorem printFields_eq : ∀ fields, printFields fields = fields.map printField
  | [] => rfl
  | (k, v) :: fields => by rw [printFields, printFields_eq fields]; rfl

theorem print_array (xs : List Json) : print (.array xs) = '[' :: items ']' (xs.map print) := by
  rw [print, printElements_eq]

theorem print_object (fields : List (String × Json)) :
    print (.object fields) = '{' :: items '}' (fields.map printField) := by
  rw [print, printFields_eq]

/-! ## 2. Reading a text -/

/-- A reader takes a value off the front of a text. -/
abbrev Reader (α : Type) := List Char → Option (α × List Char)

/-- What a one-letter escape stands for. -/
def unescape (c : Char) : Option Char :=
  if c = '"' then some '"'
  else if c = '\\' then some '\\'
  else if c = 'n' then some '\n'
  else if c = 'r' then some '\r'
  else if c = 't' then some '\t'
  else if c = 'b' then some '\x08'
  else if c = 'f' then some '\x0c'
  else none

def hexValue (c : Char) : ℕ := if c.isDigit then c.toNat - 48 else c.toNat - 87

/-- The characters of a string up to its closing quote. -/
def readQuoted : Reader (List Char)
  | [] => none
  | '"' :: rest => some ([], rest)
  | '\\' :: 'u' :: '0' :: '0' :: a :: b :: rest =>
    (readQuoted rest).map fun r => (Char.ofNat (hexValue a * 16 + hexValue b) :: r.1, r.2)
  | '\\' :: c :: rest =>
    (unescape c).bind fun d => (readQuoted rest).map fun r => (d :: r.1, r.2)
  | c :: rest => (readQuoted rest).map fun r => (c :: r.1, r.2)

def readString : Reader (List Char)
  | '"' :: rest => readQuoted rest
  | _ => none

/-- One item or more, with commas between them. -/
def readItems {α : Type} (p : Reader α) (close : Char) : ℕ → Reader (List α)
  | 0, _ => none
  | fuel + 1, cs =>
    match p cs with
    | some (x, c :: rest) =>
      if c = close then some ([x], rest)
      else if c = ',' then (readItems p close fuel rest).map fun r => (x :: r.1, r.2)
      else none
    | _ => none

/-- Items up to the closing bracket. -/
def readBracketed {α : Type} (p : Reader α) (close : Char) : Reader (List α)
  | [] => none
  | c :: rest =>
    if c = close then some ([], rest) else readItems p close (c :: rest).length (c :: rest)

/-- A field: its name, a colon, its value. -/
def readField (p : Reader Json) : Reader (String × Json) := fun cs =>
  match readString cs with
  | some (k, ':' :: rest) => (p rest).map fun r => ((String.ofList k, r.1), r.2)
  | _ => none

def readNumber : Reader Json := fun cs =>
  if h : cs.takeWhile isNumberChar = [] then none
  else
    some (.number ⟨cs.takeWhile isNumberChar, h, fun _ => List.mem_takeWhile_imp⟩,
      cs.dropWhile isNumberChar)

/-- A text's literal start. -/
def readLiteral (word : List Char) (v : Json) : Reader Json := fun cs =>
  if word.isPrefixOf cs then some (v, cs.drop word.length) else none

/-- A value, nested at most as deep as the fuel. -/
def readValue : ℕ → Reader Json
  | 0, _ => none
  | _ + 1, [] => none
  | fuel + 1, c :: rest =>
    if c = 'n' then readLiteral ['n', 'u', 'l', 'l'] .null (c :: rest)
    else if c = 't' then readLiteral ['t', 'r', 'u', 'e'] (.bool true) (c :: rest)
    else if c = 'f' then readLiteral ['f', 'a', 'l', 's', 'e'] (.bool false) (c :: rest)
    else if c = '"' then (readQuoted rest).map fun r => (.string (String.ofList r.1), r.2)
    else if c = '[' then
      (readBracketed (readValue fuel) ']' rest).map fun r => (.array r.1, r.2)
    else if c = '{' then
      (readBracketed (readField (readValue fuel)) '}' rest).map fun r => (.object r.1, r.2)
    else readNumber (c :: rest)

/-- **The tree of a text.** -/
def parse (cs : List Char) : Option Json :=
  match readValue cs.length cs with
  | some (v, []) => some v
  | _ => none

/-! ## 3. A tree is read back -/

/-- What follows a value in a text: a number ends there. -/
def Ends (rest : List Char) : Prop := ∀ c ∈ rest.head?, isNumberChar c = false

theorem ends_nil : Ends [] := fun _ h => absurd h (by simp)

theorem ends_cons {c : Char} {rest : List Char} (h : isNumberChar c = false) : Ends (c :: rest) := by
  intro d hd
  rw [List.head?_cons, Option.mem_some_iff] at hd
  rwa [← hd]

theorem hexValue_control : ∀ n < 32, Char.ofNat
    (hexValue (hexDigit (n / 16)) * 16 + hexValue (hexDigit n)) = Char.ofNat n := by
  decide

theorem readQuoted_escape (c : Char) (rest : List Char) :
    readQuoted (escape c ++ rest) = (readQuoted rest).map fun r => (c :: r.1, r.2) := by
  unfold escape
  split
  · subst c; simp [readQuoted, unescape]
  split
  · subst c; simp [readQuoted, unescape]
  split
  · subst c; simp [readQuoted, unescape]
  split
  · subst c; simp [readQuoted, unescape]
  split
  · subst c; simp [readQuoted, unescape]
  split
  · subst c; simp [readQuoted, unescape]
  split
  · subst c; simp [readQuoted, unescape]
  split
  · rename_i h
    have hc := hexValue_control c.toNat h
    rw [Char.ofNat_toNat] at hc
    simp only [List.cons_append, List.nil_append]
    rw [readQuoted, hc]
  · rename_i hquote hslash _ _ _ _ _ _
    simp only [List.cons_append, List.nil_append]
    rw [readQuoted.eq_def]
    split
    · simp_all
    · simp_all
    · simp_all
    · simp_all
    · simp_all

theorem readQuoted_quoted (rest : List Char) : ∀ cs : List Char,
    readQuoted (cs.flatMap escape ++ '"' :: rest) = some (cs, rest)
  | [] => by simp [readQuoted]
  | c :: cs => by
    rw [List.flatMap_cons, List.append_assoc, readQuoted_escape, readQuoted_quoted rest cs]
    rfl

theorem readString_quote (cs rest : List Char) :
    readString (quote cs ++ rest) = some (cs, rest) := by
  unfold quote
  rw [List.cons_append, List.append_assoc, readString]
  exact readQuoted_quoted rest cs

theorem readItems_items {α : Type} {p : Reader α} {show' : α → List Char} {close : Char}
    (hclose : isNumberChar close = false) (hcomma : close ≠ ',') (rest : List Char) :
    ∀ (xs : List α) (fuel : ℕ), xs ≠ [] → xs.length ≤ fuel →
      (∀ x ∈ xs, ∀ rest, Ends rest → p (show' x ++ rest) = some (x, rest)) →
      readItems p close fuel (items close (xs.map show') ++ rest) = some (xs, rest)
  | [], _, h, _, _ => absurd rfl h
  | _ :: _, 0, _, h, _ => absurd h (by simp)
  | [x], fuel + 1, _, _, hp => by
    have hx := hp x (List.mem_singleton_self x) (close :: rest) (ends_cons hclose)
    simp [items, readItems, hx]
  | x :: y :: xs, fuel + 1, _, hfuel, hp => by
    have hx := hp x List.mem_cons_self (',' :: (items close ((y :: xs).map show') ++ rest))
      (ends_cons (by decide))
    have ih := readItems_items hclose hcomma rest (y :: xs) fuel (List.cons_ne_nil _ _)
      (Nat.le_of_succ_le_succ hfuel) fun z hz => hp z (List.mem_cons_of_mem _ hz)
    rw [List.map_cons, List.map_cons, items, List.append_assoc, List.cons_append, ← List.map_cons,
      readItems, hx]
    simp only [Ne.symm hcomma, if_false, if_true, ih, Option.map_some]

/-- Every item takes a character and the one behind it. -/
theorem length_le_items (close : Char) : ∀ xs : List (List Char), xs.length ≤ (items close xs).length
  | [] => Nat.zero_le _
  | [x] => by simp [items]
  | x :: y :: xs => by
    have ih := length_le_items close (y :: xs)
    rw [items, List.length_append]
    simp only [List.length_cons] at ih ⊢
    omega

theorem length_lt_items (close : Char) {x : List Char} : ∀ {xs : List (List Char)}, x ∈ xs →
    x.length < (items close xs).length
  | [y], h => by
    rw [List.mem_singleton.mp h]
    simp [items]
  | y :: z :: xs, h => by
    rw [items, List.length_append, List.length_cons]
    rcases List.mem_cons.mp h with rfl | h
    · omega
    · have ih := length_lt_items close h
      omega

/-- A list in its brackets is read back when each item is and none starts with the bracket. -/
theorem readBracketed_items {α : Type} {p : Reader α} (show' : α → List Char) (close : Char)
    (hclose : isNumberChar close = false) (hcomma : close ≠ ',') (rest : List Char) {xs : List α}
    (hhead : ∀ x ∈ xs, ∃ c cs, show' x = c :: cs ∧ c ≠ close)
    (hp : ∀ x ∈ xs, ∀ rest, Ends rest → p (show' x ++ rest) = some (x, rest)) :
    readBracketed p close (items close (xs.map show') ++ rest) = some (xs, rest) := by
  cases xs with
  | nil => simp [items, readBracketed]
  | cons x xs =>
    obtain ⟨c, cs, hc, hne⟩ := hhead x List.mem_cons_self
    have hstart : ∃ tail, items close ((x :: xs).map show') ++ rest = c :: tail := by
      cases xs with
      | nil => exact ⟨cs ++ [close] ++ rest, by simp [items, hc]⟩
      | cons y xs => exact ⟨_, by rw [List.map_cons, List.map_cons, items, hc]; rfl⟩
    obtain ⟨tail, htail⟩ := hstart
    have hlen : (x :: xs).length ≤ (c :: tail).length := by
      have hle := length_le_items close ((x :: xs).map show')
      have heq := congrArg List.length htail
      rw [List.length_append] at heq
      rw [List.length_map] at hle
      omega
    have hread := readItems_items hclose hcomma rest (x :: xs) (c :: tail).length
      (List.cons_ne_nil _ _) hlen hp
    rw [htail] at hread ⊢
    rw [readBracketed, if_neg hne]
    exact hread

theorem takeWhile_of_ends {rest : List Char} (h : Ends rest) : rest.takeWhile isNumberChar = [] := by
  cases rest with
  | nil => rfl
  | cons c rest => simp [h c rfl]

theorem dropWhile_of_ends {rest : List Char} (h : Ends rest) : rest.dropWhile isNumberChar = rest := by
  cases rest with
  | nil => rfl
  | cons c rest => simp [h c rfl]

theorem readNumber_chars (n : NumberText) {rest : List Char} (h : Ends rest) :
    readNumber (n.chars ++ rest) = some (.number n, rest) := by
  have htake : (n.chars ++ rest).takeWhile isNumberChar = n.chars := by
    rw [List.takeWhile_append_of_pos n.numeric, takeWhile_of_ends h, List.append_nil]
  have hdrop : (n.chars ++ rest).dropWhile isNumberChar = rest := by
    rw [List.dropWhile_append_of_pos n.numeric, dropWhile_of_ends h]
  unfold readNumber
  rw [dif_neg (by rw [htake]; exact n.nonempty), hdrop]
  simp only [htake]

/-- A printed value's first character is no closing bracket. -/
theorem print_head (v : Json) : ∃ c cs, print v = c :: cs ∧ c ≠ ']' := by
  cases v with
  | null => exact ⟨_, _, rfl, by decide⟩
  | bool b => cases b <;> exact ⟨_, _, rfl, by decide⟩
  | number n =>
    obtain ⟨c, cs, hc⟩ := List.exists_cons_of_ne_nil n.nonempty
    refine ⟨c, cs, hc, ?_⟩
    rintro rfl
    have hnum := n.numeric ']' (by rw [hc]; exact List.mem_cons_self)
    exact absurd hnum (by decide)
  | string s => exact ⟨_, _, rfl, by decide⟩
  | array xs => exact ⟨_, _, rfl, by decide⟩
  | object fields => exact ⟨_, _, rfl, by decide⟩

theorem printField_head (f : String × Json) : ∃ c cs, printField f = c :: cs ∧ c ≠ '}' :=
  ⟨_, _, rfl, by decide⟩

theorem readField_printField {p : Reader Json} {f : String × Json} {rest : List Char}
    (h : p (print f.2 ++ rest) = some (f.2, rest)) :
    readField p (printField f ++ rest) = some (f, rest) := by
  unfold readField printField
  rw [List.append_assoc, readString_quote, List.cons_append]
  simp [h, String.ofList_toList]

/-- **A printed value is read back**, and the reader stops behind it. -/
theorem readValue_print : ∀ (n : ℕ) (v : Json) (rest : List Char), (print v).length ≤ n →
    Ends rest → readValue n (print v ++ rest) = some (v, rest)
  | 0, v, rest, hn, _ => by
    obtain ⟨c, cs, hc, -⟩ := print_head v
    rw [hc] at hn
    exact absurd hn (by simp)
  | n + 1, .null, rest, _, _ => by simp [print, readValue, readLiteral]
  | n + 1, .bool true, rest, _, _ => by simp [print, readValue, readLiteral]
  | n + 1, .bool false, rest, _, _ => by simp [print, readValue, readLiteral]
  | n + 1, .number m, rest, _, hrest => by
    obtain ⟨c, cs, hc⟩ := List.exists_cons_of_ne_nil m.nonempty
    have hnum : isNumberChar c = true := m.numeric c (by rw [hc]; exact List.mem_cons_self)
    have hother : ∀ d, isNumberChar d = false → c ≠ d := by
      rintro d hd rfl
      rw [hnum] at hd
      exact Bool.noConfusion hd
    have hread := readNumber_chars m hrest
    rw [print, hc, List.cons_append] at *
    rw [readValue, if_neg (hother 'n' (by decide)), if_neg (hother 't' (by decide)),
      if_neg (hother 'f' (by decide)), if_neg (hother '"' (by decide)),
      if_neg (hother '[' (by decide)), if_neg (hother '{' (by decide))]
    exact hread
  | n + 1, .string s, rest, _, _ => by
    have hread := readQuoted_quoted rest s.toList
    rw [print, quote, List.cons_append, List.append_assoc, readValue]
    simp [hread, String.ofList_toList]
  | n + 1, .array xs, rest, hn, _ => by
    rw [print_array, List.length_cons] at hn
    have hitem : ∀ x ∈ xs, ∀ rest, Ends rest → readValue n (print x ++ rest) = some (x, rest) := by
      intro x hx rest hrest
      have hlt := length_lt_items ']' (List.mem_map_of_mem (f := print) hx)
      exact readValue_print n x rest (by omega) hrest
    have hread := readBracketed_items print ']' (by decide) (by decide) rest
      (fun x _ => print_head x) hitem
    rw [print_array, List.cons_append, readValue]
    simp [hread]
  | n + 1, .object fields, rest, hn, _ => by
    rw [print_object, List.length_cons] at hn
    have hitem : ∀ f ∈ fields, ∀ rest, Ends rest →
        readField (readValue n) (printField f ++ rest) = some (f, rest) := by
      intro f hf rest hrest
      have hlt := length_lt_items '}' (List.mem_map_of_mem (f := printField) hf)
      have hle : (print f.2).length ≤ (printField f).length := by
        rw [printField, List.length_append, List.length_cons]
        omega
      exact readField_printField (readValue_print n f.2 rest (by omega) hrest)
    have hread := readBracketed_items printField '}' (by decide) (by decide)
      rest (fun f _ => printField_head f) hitem
    rw [print_object, List.cons_append, readValue]
    simp [hread]

/-- **A printed tree is read back as it was.** -/
theorem parse_print (v : Json) : parse (print v) = some v := by
  have hread := readValue_print (print v).length v [] (Nat.le_refl _) ends_nil
  rw [List.append_nil] at hread
  rw [parse, hread]

/-! ## 4. A text is one line -/

theorem newline_notMem_escape (c : Char) : '\n' ∉ escape c := by
  unfold escape
  split; · simp
  split; · simp
  split; · simp
  split; · simp
  split; · simp
  split; · simp
  split; · simp
  split
  · have hhex : ∀ n < 16, Nat.digitChar n ≠ '\n' := by decide
    have hdigit : ∀ n, '\n' ≠ hexDigit n := fun n =>
      (hhex (n % 16) (Nat.mod_lt _ (by decide))).symm
    simp [hdigit]
  · rename_i hnewline _ _ _ _ _
    simp [Ne.symm hnewline]

theorem newline_notMem_quote (cs : List Char) : '\n' ∉ quote cs := by
  unfold quote
  simp [newline_notMem_escape]

theorem newline_notMem_items {close : Char} (hclose : close ≠ '\n') : ∀ {xs : List (List Char)},
    (∀ x ∈ xs, '\n' ∉ x) → '\n' ∉ items close xs
  | [], _ => by simp [items, Ne.symm hclose]
  | [x], h => by simp [items, Ne.symm hclose, h x]
  | x :: y :: xs, h => by
    have ih := newline_notMem_items hclose fun z hz => h z (List.mem_cons_of_mem _ hz)
    have hx := h x List.mem_cons_self
    simp [items, hx, ih]

/-- **A printed tree holds no line break.** -/
theorem newline_notMem_print : ∀ v : Json, '\n' ∉ print v
  | .null => by decide
  | .bool true => by decide
  | .bool false => by decide
  | .number n => by
    intro h
    exact absurd (n.numeric _ h) (by decide)
  | .string s => newline_notMem_quote _
  | .array xs => by
    rw [print_array]
    have hitems : '\n' ∉ items ']' (xs.map print) := by
      refine newline_notMem_items (by decide) fun x hx => ?_
      obtain ⟨y, hy, rfl⟩ := List.mem_map.mp hx
      exact newline_notMem_print y
    simp [hitems]
  | .object fields => by
    rw [print_object]
    have hitems : '\n' ∉ items '}' (fields.map printField) := by
      refine newline_notMem_items (by decide) fun x hx => ?_
      obtain ⟨f, hf, rfl⟩ := List.mem_map.mp hx
      have hvalue := newline_notMem_print f.2
      simp [printField, newline_notMem_quote, hvalue]
    simp [hitems]
termination_by v => sizeOf v
decreasing_by
  · have hlt := List.sizeOf_lt_of_mem hy
    simp only [Json.array.sizeOf_spec]
    omega
  · have hlt := List.sizeOf_lt_of_mem hf
    obtain ⟨k, u⟩ := f
    simp only [Prod.mk.sizeOf_spec] at hlt
    simp only [Json.object.sizeOf_spec]
    omega

/-! ## 5. Natural numbers -/

theorem digit_numeric {c : Char} (h : c.isDigit = true) : isNumberChar c = true := by
  simp [isNumberChar, h]

/-- A natural number in decimal. -/
def ofNat (n : ℕ) : Json :=
  .number ⟨Nat.toDigits 10 n, Nat.toDigits_ne_nil, fun _ hc =>
    digit_numeric (Nat.isDigit_of_mem_toDigits (by decide) (by decide) hc)⟩

/-- The number of a text of digits. -/
def toNat? : Json → Option ℕ
  | .number n => if n.chars.all Char.isDigit then some (Nat.ofDigitChars 10 n.chars 0) else none
  | _ => none

@[simp] theorem toNat?_ofNat (n : ℕ) : toNat? (ofNat n) = some n := by
  have hdigits : (Nat.toDigits 10 n).all Char.isDigit = true :=
    List.all_eq_true.mpr fun c hc => Nat.isDigit_of_mem_toDigits (by decide) (by decide) hc
  unfold toNat? ofNat
  simp only [hdigits, if_true, Nat.ofDigitChars_toDigits (b := 10) (n := n) (by decide) (by decide)]

def toBool? : Json → Option Bool
  | .bool b => some b
  | _ => none

def toString? : Json → Option String
  | .string s => some s
  | _ => none

/-- An array, each of its elements read. -/
def toList? {α : Type} (read : Json → Option α) : Json → Option (List α)
  | .array xs => xs.mapM read
  | _ => none

theorem toList?_array {α : Type} {read : Json → Option α} (write : α → Json)
    (h : ∀ a, read (write a) = some a) (as : List α) :
    toList? read (.array (as.map write)) = some as := by
  change (as.map write).mapM read = some as
  induction as with
  | nil => rfl
  | cons a as ih =>
    rw [List.map_cons, List.mapM_cons, h a, ih]
    rfl

/-! ## 6. Records -/

/-- The fields that are there. -/
def present (entries : List (String × Option Json)) : List (String × Json) :=
  entries.filterMap fun e => e.2.map fun v => (e.1, v)

/-- The value of a field, if the object has it; an object has no field twice. -/
def member (name : String) (fields : List (String × Json)) : Option (Option Json) :=
  match fields.filter fun f => f.1 = name with
  | [] => some none
  | [f] => some (some f.2)
  | _ => none

theorem filter_present_of_notMem {name : String} : ∀ {entries : List (String × Option Json)},
    name ∉ entries.map Prod.fst → (present entries).filter (fun f => f.1 = name) = []
  | [], _ => rfl
  | (k, v) :: entries, h => by
    rw [List.map_cons, List.mem_cons, not_or] at h
    have ih := filter_present_of_notMem h.2
    cases v with
    | none => simpa [present] using ih
    | some v => simpa [present, Ne.symm h.1] using ih

/-- **A record's field is read back by its name.** -/
theorem member_present {name : String} {value : Option Json} :
    ∀ {entries : List (String × Option Json)}, (entries.map Prod.fst).Nodup →
      (name, value) ∈ entries → member name (present entries) = some value
  | [], _, h => absurd h List.not_mem_nil
  | (k, v) :: entries, hnodup, h => by
    rw [List.map_cons, List.nodup_cons] at hnodup
    rcases List.mem_cons.mp h with heq | h
    · rw [Prod.mk.injEq] at heq
      obtain ⟨rfl, rfl⟩ := heq
      have hrest := filter_present_of_notMem hnodup.1
      cases value with
      | none =>
        have hfilter : (present ((name, none) :: entries)).filter (fun f => f.1 = name) = [] := by
          simpa [present] using hrest
        rw [member, hfilter]
      | some v =>
        have hfilter : (present ((name, some v) :: entries)).filter (fun f => f.1 = name)
            = [(name, v)] := by
          simpa [present] using hrest
        rw [member, hfilter]
    · have hne : k ≠ name := by
        rintro rfl
        exact hnodup.1 (List.mem_map.mpr ⟨_, h, rfl⟩)
      have ih := member_present hnodup.2 h
      have hfilter : (present ((k, v) :: entries)).filter (fun f => f.1 = name)
          = (present entries).filter fun f => f.1 = name := by
        cases v <;> simp [present, hne]
      rw [member, hfilter]
      exact ih

/-- A field that must be there. -/
def required {α : Type} (name : String) (read : Json → Option α) (fields : List (String × Json)) :
    Option α :=
  (member name fields).bind fun v => v.bind read

/-- A field that may be absent or `null`. -/
def maybe {α : Type} (name : String) (read : Json → Option α) (fields : List (String × Json)) :
    Option (Option α) :=
  (member name fields).bind fun v =>
    match v with
    | none => some none
    | some .null => some none
    | some v => (read v).map some

/-- A field with a value to stand in for it. -/
def defaulted {α : Type} (default' : α) (name : String) (read : Json → Option α)
    (fields : List (String × Json)) : Option α :=
  (member name fields).bind fun v =>
    match v with
    | none => some default'
    | some v => read v

/-- A flag, left out when it is not set. -/
def flag (b : Bool) : Option Json := if b then some (.bool true) else none

/-- An explicit `null` is read as no value. -/
def nonNull : Option Json → Option Json
  | some .null => none
  | v => v

section Record

variable {α : Type} {name : String} {read : Json → Option α} {entries : List (String × Option Json)}
  (hnodup : (entries.map Prod.fst).Nodup)
include hnodup

theorem required_present {v : Json} (h : (name, some v) ∈ entries) :
    required name read (present entries) = read v := by
  rw [required, member_present hnodup h]
  rfl

theorem maybe_present {write : α → Json} {value : Option α}
    (hread : ∀ a, read (write a) = some a) (hnull : ∀ a, write a ≠ .null)
    (h : (name, value.map write) ∈ entries) :
    maybe name read (present entries) = some value := by
  rw [maybe, member_present hnodup h, Option.bind_some]
  cases value with
  | none => rfl
  | some a =>
    rw [Option.map_some]
    split
    · rename_i heq
      exact absurd heq (by simp)
    · rename_i heq
      exact absurd (Option.some_inj.mp heq) (hnull a)
    · rename_i heq
      rw [← Option.some_inj.mp heq, hread]
      rfl

theorem defaulted_present {default' a : α} {value : Option Json} (h : (name, value) ∈ entries)
    (hnone : value = none → a = default') (hsome : ∀ v, value = some v → read v = some a) :
    defaulted default' name read (present entries) = some a := by
  rw [defaulted, member_present hnodup h, Option.bind_some]
  cases value with
  | none => rw [hnone rfl]
  | some v => exact hsome v rfl

theorem maybe_value_present {v : Option Json} (h : (name, v) ∈ entries) :
    maybe name some (present entries) = some (nonNull v) := by
  rw [maybe, member_present hnodup h, Option.bind_some]
  cases v with
  | none => rfl
  | some v => cases v <;> rfl

theorem flag_present {b : Bool} (h : (name, flag b) ∈ entries) :
    defaulted false name toBool? (present entries) = some b := by
  refine defaulted_present hnodup h ?_ ?_
  · intro hnone
    cases b with
    | false => rfl
    | true => exact absurd hnone (by simp [flag])
  · intro v hv
    cases b with
    | false => exact absurd hv (by simp [flag])
    | true => rw [← Option.some_inj.mp hv]; rfl

end Record

end JsonText
