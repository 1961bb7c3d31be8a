import Federation.Json.Printer
import Federation.Json.Reader

/-!
# Reading JSON Text Back

The text of a value is read as that value again, if there are no numbers in it and no object
has two members of one name. A number would need an account of its digits, and of members
that share a name the reader keeps the last.

Any characters may stand in a string. The printer writes a character as it is, behind a
backslash, or by its number, and whichever it is, the reader takes it for that character.

The reader is told how many parts it may read, so that it ends. Twice as many parts as there
are characters are enough: a value takes one part and each of its items another, and none of
them is without text. `ReadsWithin` says of values, items and members at once that they are
read back with so many parts, and each of the three follows for one part more.

## Main definitions

* `quoted`, `moreItems`, `moreMembers`: What the printer writes of a string, and of items and
  members after the first.
* `Wordy`: There are no numbers in a value, and the members of its objects have names of
  their own.
* `ReadsWithin`: Values are read back with so many parts to read.

## Theorems

* `toList_write`: The text of a value goes behind what has been written before.
* `readString_characterText`, `readString_quoted`: What is read of a character and of a string.
* `text_begins`: The text of a value does not begin like a gap.
* `readsWithin`: Enough parts are enough, for every value.
* `ofText?_text`: A value is read back from its text.
-/

namespace Federation.Json

open Text (isGap)

/-! ### Strings -/

/-- The text of a string, in its quotes. -/
def quoted (s : String) : List Char :=
  '"' :: s.toList.flatMap (fun c => (characterText c).toList) ++ ['"']

theorem toList_writeString (s out : String) :
    (writeString s out).toList = out.toList ++ quoted s := by
  have hfold : ∀ (l : List Char) (out : String),
      (l.foldl (fun out c => out ++ characterText c) out).toList
        = out.toList ++ l.flatMap fun c => (characterText c).toList := by
    intro l
    induction l with
    | nil => simp
    | cons c rest ih => simp [ih]
  rw [writeString, String.foldl_eq_foldl_toList, String.toList_append, hfold, quoted]
  simp

/-- The code points that are escaped by number. -/
def numbered : List Nat := List.range 0x20 ++ [0x7F, 0x85, 0x2028, 0x2029]

-- An escape by number has four digits, which give the number.
theorem unicodeEscape_digits : ∀ n ∈ numbered,
    (unicodeEscape (Char.ofNat n)).toList.take 2 = ['\\', 'u'] ∧
      (unicodeEscape (Char.ofNat n)).toList.length = 6 ∧
        hexValue? ((unicodeEscape (Char.ofNat n)).toList.drop 2) = some n := by
  decide

theorem lt_of_mem_numbered : ∀ n ∈ numbered, n < 0xD800 := by decide

theorem unicodeEscape_eq {n : Nat} (h : n ∈ numbered) : ∃ a b c d,
    (unicodeEscape (Char.ofNat n)).toList = ['\\', 'u', a, b, c, d] ∧
      hexValue? [a, b, c, d] = some n := by
  rcases unicodeEscape_digits n h with ⟨hmark, hlength, hvalue⟩
  match hcs : (unicodeEscape (Char.ofNat n)).toList, hlength with
  | [e, u, a, b, c, d], _ =>
      rw [hcs] at hmark hvalue
      obtain ⟨rfl, rfl⟩ : e = '\\' ∧ u = 'u' := by simpa using hmark
      exact ⟨a, b, c, d, rfl, hvalue⟩

section Characters

variable (done rest : List Char)

theorem readString_number {a b c d : Char} {n : Nat} (hn : hexValue? [a, b, c, d] = some n)
    (hlt : n < 0xD800) : readString done ('\\' :: 'u' :: a :: b :: c :: d :: rest)
      = readString (Char.ofNat n :: done) rest := by
  rw [readString, hn]
  simp only
  rw [if_neg (by omega), if_neg (by omega)]

theorem readString_plain {c : Char} (hquote : c ≠ '"') (hmark : c ≠ '\\')
    (hc : ¬c.toNat < 0x20) : readString done (c :: rest) = readString (c :: done) rest := by
  rw [readString]
  · rw [if_neg hc]
  · exact hquote
  · exact fun _ _ _ _ _ h _ => hmark h
  · exact fun _ _ h _ => hmark h

/-- However a character is written, it is read as that character. -/
theorem readString_characterText (c : Char) :
    readString done ((characterText c).toList ++ rest) = readString (c :: done) rest := by
  unfold characterText
  split
  · rename_i hc
    rw [beq_iff_eq] at hc
    subst hc
    rfl
  split
  · rename_i hc
    rw [beq_iff_eq] at hc
    subst hc
    rfl
  split
  · rename_i hc
    have hmem : c.toNat ∈ numbered := by
      rw [numbered, List.mem_append, List.mem_range]
      simpa using hc
    rcases unicodeEscape_eq hmem with ⟨a, b, d, e, hcs, hvalue⟩
    rw [Char.ofNat_toNat] at hcs
    rw [hcs]
    exact (readString_number done rest hvalue (lt_of_mem_numbered _ hmem)).trans
      (by rw [Char.ofNat_toNat])
  · rename_i hquote hmark hc
    rw [beq_iff_eq] at hquote hmark
    rw [String.toList_singleton]
    exact readString_plain done rest hquote hmark fun h => hc (Or.inl h)

/-- A string is read back, whatever its characters. -/
theorem readString_quoted (s : String) :
    readString [] (s.toList.flatMap (fun c => (characterText c).toList) ++ '"' :: rest)
      = some (s, rest) := by
  -- The characters read so far are kept in reverse.
  suffices h : ∀ l done,
      readString done (l.flatMap (fun c => (characterText c).toList) ++ '"' :: rest)
        = some (String.ofList (done.reverse ++ l), rest) by
    rw [h s.toList []]
    simp
  intro l
  induction l with
  | nil =>
      intro done
      rw [List.append_nil]
      rfl
  | cons c l ih =>
      intro done
      rw [List.flatMap_cons, List.append_assoc, readString_characterText, ih]
      simp

end Characters

/-! ### Values -/

/-- The items of an array after the first, each after a comma. -/
def moreItems (items : List Json) : List Char :=
  items.flatMap fun item => ',' :: (text item).toList

/-- The members of an object after the first, each after a comma. -/
def moreMembers (members : List (String × Json)) : List Char :=
  members.flatMap fun m => ',' :: (quoted m.1 ++ ':' :: (text m.2).toList)

mutual

/-- The text of a value goes behind what has been written before. -/
theorem toList_write (j : Json) (out : String) :
    (write j out).toList = out.toList ++ (text j).toList := by
  cases j with
  | null => rw [text]; simp [write]
  | bool b => rw [text]; cases b <;> simp [write]
  | int i => rw [text]; simp [write]
  | float x => rw [text]; simp [write]
  | string s => rw [text]; simp [write, toList_writeString]
  | array items =>
      rw [text]
      cases items with
      | nil => simp [write]
      | cons item items =>
          simp [write, toList_writeItems items, toList_write item]
  | object members =>
      rw [text]
      cases members with
      | nil => simp [write]
      | cons m members =>
          obtain ⟨name, value⟩ := m
          simp [write, toList_writeMembers members, toList_write value, toList_writeString]

theorem toList_writeItems (items : List Json) (out : String) :
    (writeItems items out).toList = out.toList ++ moreItems items := by
  cases items with
  | nil => simp [writeItems, moreItems]
  | cons item items =>
      simp [writeItems, toList_writeItems items, toList_write item, moreItems]

theorem toList_writeMembers (members : List (String × Json)) (out : String) :
    (writeMembers members out).toList = out.toList ++ moreMembers members := by
  cases members with
  | nil => simp [writeMembers, moreMembers]
  | cons m members =>
      obtain ⟨name, value⟩ := m
      simp [writeMembers, toList_writeMembers members, toList_write value, toList_writeString,
        moreMembers]

end

theorem text_string (s : String) : (text (.string s)).toList = quoted s := by
  simp [text, write, toList_writeString]

theorem text_array (item : Json) (items : List Json) :
    (text (.array (item :: items))).toList
      = '[' :: ((text item).toList ++ (moreItems items ++ [']'])) := by
  rw [text]
  simp [write, toList_writeItems, toList_write]

theorem text_object (name : String) (value : Json) (members : List (String × Json)) :
    (text (.object ((name, value) :: members))).toList
      = '{' :: (quoted name ++ ':' :: ((text value).toList ++ (moreMembers members ++ ['}']))) := by
  rw [text]
  simp [write, toList_writeMembers, toList_write, toList_writeString]

/-! ### Reading values -/

mutual

/-- Whether there are no numbers in a value, and no two members of one name in an object. -/
def Wordy : Json → Prop
  | .int _ => False
  | .float _ => False
  | .array items => AllWordy items
  | .object members => MembersWordy members
  | _ => True

/-- Whether there are no numbers in several values, and no two members of one name. -/
def AllWordy : List Json → Prop
  | [] => True
  | item :: items => Wordy item ∧ AllWordy items

/-- Whether members have names of their own, and no numbers in their values. -/
def MembersWordy : List (String × Json) → Prop
  | [] => True
  | (name, value) :: members =>
    (∀ m ∈ members, m.1 ≠ name) ∧ Wordy value ∧ MembersWordy members

end

theorem allWordy_iff (items : List Json) : AllWordy items ↔ ∀ item ∈ items, Wordy item := by
  induction items with
  | nil => exact iff_of_true trivial nofun
  | cons item items ih => rw [AllWordy, ih, List.forall_mem_cons]

theorem membersWordy_iff (members : List (String × Json)) : MembersWordy members ↔
    (members.Pairwise fun m n => n.1 ≠ m.1) ∧ ∀ m ∈ members, Wordy m.2 := by
  induction members with
  | nil => exact iff_of_true trivial ⟨List.Pairwise.nil, nofun⟩
  | cons m members ih =>
      rw [MembersWordy, ih, List.pairwise_cons, List.forall_mem_cons]
      exact ⟨fun ⟨hname, hvalue, hnames, hvalues⟩ => ⟨⟨hname, hnames⟩, hvalue, hvalues⟩,
        fun ⟨⟨hname, hnames⟩, hvalue, hvalues⟩ => ⟨hname, hvalue, hnames, hvalues⟩⟩

/-- A value does not begin like a gap or like the end of an array. -/
theorem text_begins {j : Json} (h : Wordy j) :
    ∃ c tail, (text j).toList = c :: tail ∧ isGap c = false ∧ c ≠ ']' := by
  cases j with
  | null => exact ⟨'n', _, rfl, rfl, by decide⟩
  | bool b =>
      cases b with
      | true => exact ⟨'t', _, rfl, rfl, by decide⟩
      | false => exact ⟨'f', _, rfl, rfl, by decide⟩
  | int i => exact absurd h id
  | float x => exact absurd h id
  | string s => exact ⟨'"', _, text_string s, rfl, by decide⟩
  | array items =>
      cases items with
      | nil => exact ⟨'[', _, rfl, rfl, by decide⟩
      | cons item items => exact ⟨'[', _, text_array item items, rfl, by decide⟩
  | object members =>
      cases members with
      | nil => exact ⟨'{', _, rfl, rfl, by decide⟩
      | cons m members => exact ⟨'{', _, text_object m.1 m.2 members, rfl, by decide⟩

/-- Whether values are read back with so many parts to read. -/
structure ReadsWithin (parts : Nat) : Prop where
  value : ∀ j rest, Wordy j → 2 * (text j).toList.length ≤ parts →
    readValue parts ((text j).toList ++ rest) = some (j, rest)
  items : ∀ item items rest, AllWordy (item :: items) →
    2 * ((text item).toList ++ moreItems items).length + 2 ≤ parts →
      readItems parts ((text item).toList ++ (moreItems items ++ ']' :: rest))
        = some (item :: items, rest)
  members : ∀ name value members rest, MembersWordy ((name, value) :: members) →
    2 * (quoted name ++ ':' :: ((text value).toList ++ moreMembers members)).length + 2 ≤ parts →
      readMembers parts
          (quoted name ++ ':' :: ((text value).toList ++ (moreMembers members ++ '}' :: rest)))
        = some ((name, value) :: members, rest)

-- An array is read item by item unless it ends at once, so what follows its bracket is told
-- apart by one character.
theorem readValue_array (parts : Nat) {c : Char} (tail : List Char) (hgap : isGap c = false)
    (hend : c ≠ ']') : readValue (parts + 1) ('[' :: c :: tail)
      = (readItems parts (c :: tail)).map fun (items, rest) => (array items, rest) := by
  have hstart : ('[' :: c :: tail).dropWhile isGap = '[' :: c :: tail := rfl
  have hitem : (c :: tail).dropWhile isGap = c :: tail := by
    rw [List.dropWhile_cons, hgap]
    rfl
  rw [readValue, hstart]
  simp only
  rw [hitem]
  split
  · rename_i hcs
    exact absurd (List.cons.inj hcs).1 hend
  · rfl

-- An object that begins with a name is read member by member.
theorem readValue_object (parts : Nat) (name : String) (tail : List Char) :
    readValue (parts + 1) ('{' :: (quoted name ++ tail))
      = (readMembers parts (quoted name ++ tail)).map
          fun (members, rest) => (object members, rest) := rfl

-- A member stands before others if none of them has its name.
theorem addMember_of_ne (name : String) (value : Json) {members : List (String × Json)}
    (h : ∀ m ∈ members, m.1 ≠ name) : addMember name value members = (name, value) :: members := by
  rw [addMember, if_neg]
  rw [List.any_eq_true]
  rintro ⟨m, hm, heq⟩
  exact h m hm (beq_iff_eq.mp heq)

-- A member is a name, a value, and what comes after it.
theorem readMembers_quoted (parts : Nat) (name : String) (tail : List Char) :
    readMembers (parts + 1) (quoted name ++ ':' :: tail)
      = match readValue parts tail with
        | none => none
        | some (value, rest) =>
          match rest.dropWhile isGap with
          | '}' :: rest => some ([(name, value)], rest)
          | ',' :: rest =>
            (readMembers parts rest).map fun (members, rest) =>
              (addMember name value members, rest)
          | _ => none := by
  have hstart : (quoted name ++ ':' :: tail).dropWhile isGap = '"' ::
      (name.toList.flatMap (fun c => (characterText c).toList) ++ '"' :: ':' :: tail) := by
    rw [quoted, List.append_assoc]
    rfl
  rw [readMembers, hstart]
  simp only
  rw [readString_quoted]
  rfl

namespace ReadsWithin

variable {parts : Nat}

theorem value_succ (h : ReadsWithin parts) (j : Json) (rest : List Char) (hj : Wordy j)
    (hparts : 2 * (text j).toList.length ≤ parts + 1) :
    readValue (parts + 1) ((text j).toList ++ rest) = some (j, rest) := by
  cases j with
  | null => rfl
  | bool b =>
      cases b with
      | true => rfl
      | false => rfl
  | int i => exact absurd hj id
  | float x => exact absurd hj id
  | string s =>
      rw [text_string, quoted, List.append_assoc]
      show (readString [] (_ ++ '"' :: rest)).map _ = _
      rw [readString_quoted]
      rfl
  | array items =>
      cases items with
      | nil => rfl
      | cons item items =>
          rw [text_array] at hparts ⊢
          simp only [List.length_cons, List.length_append, List.length_nil] at hparts
          have hitems := h.items item items rest hj (by rw [List.length_append]; omega)
          rcases text_begins hj.1 with ⟨c, tail, hbegin, hgap, hend⟩
          rw [List.cons_append, List.append_assoc, List.append_assoc, List.singleton_append]
          rw [hbegin] at hitems ⊢
          rw [List.cons_append, readValue_array parts _ hgap hend, ← List.cons_append, hitems]
          rfl
  | object members =>
      cases members with
      | nil => rfl
      | cons m members =>
          obtain ⟨name, value⟩ := m
          rw [text_object] at hparts ⊢
          simp only [List.length_cons, List.length_append, List.length_nil] at hparts
          have hmembers := h.members name value members rest hj (by
            simp only [List.length_cons, List.length_append]
            omega)
          simp only [List.cons_append, List.append_assoc, List.nil_append]
          rw [readValue_object, hmembers]
          rfl

theorem items_succ (h : ReadsWithin parts) (item : Json) (items : List Json) (rest : List Char)
    (hwordy : AllWordy (item :: items))
    (hparts : 2 * ((text item).toList ++ moreItems items).length + 2 ≤ parts + 1) :
    readItems (parts + 1) ((text item).toList ++ (moreItems items ++ ']' :: rest))
      = some (item :: items, rest) := by
  rw [List.length_append] at hparts
  rw [readItems, h.value item _ hwordy.1 (by omega)]
  cases items with
  | nil => rfl
  | cons next more =>
      have hmore : moreItems (next :: more) = ',' :: ((text next).toList ++ moreItems more) := rfl
      -- The comma pays for the part that reads on.
      rw [hmore, List.length_cons, List.length_append] at hparts
      rw [hmore, List.cons_append, List.append_assoc]
      show (readItems parts _).map _ = _
      rw [h.items next more rest hwordy.2 (by rw [List.length_append]; omega)]
      rfl

theorem members_succ (h : ReadsWithin parts) (name : String) (value : Json)
    (members : List (String × Json)) (rest : List Char)
    (hwordy : MembersWordy ((name, value) :: members))
    (hparts : 2 * (quoted name ++ ':' :: ((text value).toList ++ moreMembers members)).length + 2
      ≤ parts + 1) :
    readMembers (parts + 1)
        (quoted name ++ ':' :: ((text value).toList ++ (moreMembers members ++ '}' :: rest)))
      = some ((name, value) :: members, rest) := by
  obtain ⟨hname, hvalue, hmembers⟩ := hwordy
  simp only [List.length_append, List.length_cons] at hparts
  rw [readMembers_quoted, h.value value _ hvalue (by omega)]
  cases members with
  | nil => rfl
  | cons next more =>
      obtain ⟨key, content⟩ := next
      have hmore : moreMembers ((key, content) :: more)
          = ',' :: (quoted key ++ ':' :: ((text content).toList ++ moreMembers more)) := by
        simp [moreMembers]
      rw [hmore] at hparts ⊢
      simp only [List.cons_append, List.append_assoc]
      show (readMembers parts _).map _ = _
      rw [h.members key content more rest hmembers (by
        simp only [List.length_cons, List.length_append] at hparts ⊢
        omega), Option.map_some, addMember_of_ne name value hname]

end ReadsWithin

/-- Values are read back with any number of parts to read, if it suits their length. -/
theorem readsWithin (parts : Nat) : ReadsWithin parts := by
  induction parts with
  | zero =>
      constructor
      case value =>
        intro j rest hj hparts
        rcases text_begins hj with ⟨c, tail, hbegin, _⟩
        rw [hbegin, List.length_cons] at hparts
        omega
      case items => exact fun _ _ _ _ h => absurd h (by omega)
      case members => exact fun _ _ _ _ _ h => absurd h (by omega)
  | succ parts ih => exact ⟨ih.value_succ, ih.items_succ, ih.members_succ⟩

/-- A value without numbers is read back from its text. -/
theorem ofText?_text {j : Json} (h : Wordy j) : ofText? (text j) = some j := by
  have hread := (readsWithin (2 * (text j).toList.length + 2)).value j [] h (by omega)
  rw [List.append_nil] at hread
  rw [ofText?]
  simp only [hread]
  rfl

end Federation.Json
