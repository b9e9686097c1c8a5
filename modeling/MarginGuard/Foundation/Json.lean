import MarginGuard.Foundation.Decimal

/-!
# Compact JSON of flat objects

Members whose values are texts and integers, written without blanks: quotes,
backslashes and control characters are escaped, everything else stands as it is.
`readObject` reads such text back (`readObject_renderObject`), so it is
determined by its members.
-/
namespace MarginGuard.Foundation.Json

/-- The value of a member. -/
inductive Scalar where
  | text (s : List Char)
  | number (n : Int)
  deriving DecidableEq

/-- A name with its value. -/
abbrev Member := List Char × Scalar

/-- Under different names, each member is found by its own. -/
theorem lookup_of_mem {members : List Member} (distinct : (members.map Prod.fst).Nodup) {m : Member}
    (member : m ∈ members) : members.lookup m.1 = some m.2 := by
  obtain ⟨front, back, rfl⟩ := List.append_of_mem member
  rw [List.map_append, List.map_cons, List.nodup_append] at distinct
  refine List.lookup_eq_some_iff.mpr ⟨front, back, rfl, fun other earlier => ?_⟩
  have apart := distinct.2.2 other.1 (List.mem_map_of_mem earlier) m.1 (List.mem_cons_self ..)
  exact bne_iff_ne.mpr apart.symm

/-! ## Texts -/

/-- The letters behind a backslash, with what they stand for. -/
def shortEscapes : List (Char × Char) :=
  [('"', '"'), ('\\', '\\'), ('b', '\x08'), ('f', '\x0c'), ('n', '\n'), ('r', '\x0d'), ('t', '\t')]

/-- One character between quotes. -/
def escape (c : Char) : List Char :=
  match shortEscapes.find? fun entry => entry.2 = c with
  | some entry => ['\\', entry.1]
  | none =>
    if c.toNat < 32 then
      ['\\', 'u', '0', '0', Nat.digitChar (c.toNat / 16), Nat.digitChar (c.toNat % 16)]
    else [c]

/-- A text in quotes. -/
def quote (s : List Char) : List Char := '"' :: (s.flatMap escape ++ ['"'])

/-- The value of a hexadecimal digit. -/
def hexValue (c : Char) : Option Nat := (List.range 16).find? fun n => Nat.digitChar n = c

/-- The characters up to the closing quote, and what follows it. -/
def readText : List Char → Option (List Char × List Char)
  | [] => none
  | '"' :: rest => some ([], rest)
  | '\\' :: 'u' :: '0' :: '0' :: high :: low :: rest =>
    (hexValue high).bind fun h => (hexValue low).bind fun l =>
      (readText rest).map fun read => (Char.ofNat (16 * h + l) :: read.1, read.2)
  | '\\' :: letter :: rest =>
    (shortEscapes.lookup letter).bind fun c => (readText rest).map fun read => (c :: read.1, read.2)
  | c :: rest => (readText rest).map fun read => (c :: read.1, read.2)

theorem hexValue_digitChar : ∀ n < 16, hexValue (Nat.digitChar n) = some n := by decide

/-- A character with a short escape is read back from it. -/
theorem readText_short {entry : Char × Char} (listed : entry ∈ shortEscapes) (rest : List Char) :
    readText ('\\' :: entry.1 :: rest) =
      (readText rest).map fun read => (entry.2 :: read.1, read.2) := by
  simp only [shortEscapes, List.mem_cons, List.not_mem_nil, or_false] at listed
  rcases listed with rfl | rfl | rfl | rfl | rfl | rfl | rfl <;> rfl

/-- A character that is not special is read as it is. -/
theorem readText_plain {c : Char} (quote : c ≠ '"') (backslash : c ≠ '\\') (rest : List Char) :
    readText (c :: rest) = (readText rest).map fun read => (c :: read.1, read.2) := by
  rw [readText.eq_def]
  split
  · next same => cases same
  · next same => exact absurd (List.cons.inj same).1 quote
  · next same => exact absurd (List.cons.inj same).1 backslash
  · next same => exact absurd (List.cons.inj same).1 backslash
  · next same =>
    obtain ⟨rfl, rfl⟩ := List.cons.inj same
    rfl

theorem readText_escape (c : Char) (rest : List Char) :
    readText (escape c ++ rest) = (readText rest).map fun read => (c :: read.1, read.2) := by
  unfold escape
  cases found : shortEscapes.find? fun entry => entry.2 = c with
  | some entry =>
    have own : entry.2 = c := by simpa using List.find?_some found
    rw [← own]
    exact readText_short (List.mem_of_find?_eq_some found) rest
  | none =>
    have other : ∀ entry ∈ shortEscapes, entry.2 ≠ c := by simpa using found
    dsimp only
    split
    · next control =>
      change (hexValue (Nat.digitChar (c.toNat / 16))).bind _ = _
      rw [hexValue_digitChar _ (by omega), Option.bind_some, hexValue_digitChar _ (by omega),
        Option.bind_some, Nat.div_add_mod, Char.ofNat_toNat]
      rfl
    · refine readText_plain ?_ ?_ rest
      · exact (other ('"', '"') (by decide)).symm
      · exact (other ('\\', '\\') (by decide)).symm

/-- A quoted text is read up to its closing quote. -/
theorem readText_quote (s rest : List Char) :
    readText (s.flatMap escape ++ '"' :: rest) = some (s, rest) := by
  induction s with
  | nil => rfl
  | cons c s ih =>
    rw [List.flatMap_cons, List.append_assoc, readText_escape, ih]
    rfl

/-! ## Members -/

/-- The characters of a number. -/
def numeric (c : Char) : Bool := c = '-' || c.isDigit

def renderScalar : Scalar → List Char
  | .text s => quote s
  | .number n => Decimal.render n

def renderMember (m : Member) : List Char := quote m.1 ++ ':' :: renderScalar m.2

/-- Members with commas between them. -/
def renderMembers : List Member → List Char
  | [] => []
  | [m] => renderMember m
  | m :: m' :: rest => renderMember m ++ ',' :: renderMembers (m' :: rest)

/-- An object on one line. -/
def renderObject (members : List Member) : List Char :=
  '\x7b' :: (renderMembers members ++ ['\x7d'])

def readScalar : List Char → Option (Scalar × List Char)
  | '"' :: rest => (readText rest).map fun read => (.text read.1, read.2)
  | cs => (Decimal.parse (cs.takeWhile numeric)).map fun n => (.number n, cs.dropWhile numeric)

def readMember : List Char → Option (Member × List Char)
  | '"' :: rest => (readText rest).bind fun
    | (name, ':' :: rest) => (readScalar rest).map fun read => ((name, read.1), read.2)
    | _ => none
  | _ => none

/-- At least one member, up to the closing brace; no more than the given number. -/
def readMembers : Nat → List Char → Option (List Member)
  | 0, _ => none
  | limit + 1, cs => (readMember cs).bind fun
    | (m, ',' :: rest) => (readMembers limit rest).map (m :: ·)
    | (m, [c]) => if c = '\x7d' then some [m] else none
    | _ => none

/-- An object is read to the end of the text. -/
def readObject : List Char → Option (List Member)
  | c :: cs =>
    if c = '\x7b' then if cs = ['\x7d'] then some [] else readMembers cs.length cs else none
  | [] => none

theorem render_ne_nil (n : Int) : Decimal.render n ≠ [] := by
  unfold Decimal.render
  split
  · exact List.cons_ne_nil _ _
  · exact Nat.toDigits_ne_nil

theorem numeric_render (n : Int) : ∀ c ∈ Decimal.render n, numeric c = true := by
  have digits : ∀ c ∈ Nat.toDigits 10 n.natAbs, numeric c = true := by
    intro c member
    rw [numeric, Nat.isDigit_of_mem_toDigits (by decide) (by decide) member, Bool.or_true]
  unfold Decimal.render
  split
  · exact List.forall_mem_cons.mpr ⟨rfl, digits⟩
  · exact digits

/-- A text that starts with a numeric character is read as a number. -/
theorem readScalar_numeric {cs : List Char} (start : ∀ rest, cs ≠ '"' :: rest) :
    readScalar cs =
      (Decimal.parse (cs.takeWhile numeric)).map fun n => (.number n, cs.dropWhile numeric) := by
  rw [readScalar.eq_def]
  split
  · next rest => exact absurd rfl (start rest)
  · rfl

/-- A number ends where another character stands. -/
theorem readScalar_render (v : Scalar) {c : Char} (stop : numeric c = false) (rest : List Char) :
    readScalar (renderScalar v ++ c :: rest) = some (v, c :: rest) := by
  cases v with
  | text s =>
    change (readText (s.flatMap escape ++ ['"'] ++ c :: rest)).map _ = _
    rw [List.append_assoc, List.singleton_append, readText_quote]
    rfl
  | number n =>
    have own := numeric_render n
    have start : ∀ tail, Decimal.render n ++ c :: rest ≠ '"' :: tail := by
      intro tail same
      cases written : Decimal.render n with
      | nil => exact absurd written (render_ne_nil n)
      | cons d ds =>
        rw [written] at same own
        have first := own d (List.mem_cons_self ..)
        rw [(List.cons.inj same).1] at first
        exact absurd first (by decide)
    rw [renderScalar, readScalar_numeric start, List.takeWhile_append_of_pos own,
      List.dropWhile_append_of_pos own, List.takeWhile_cons_of_neg (by simp [stop]),
      List.dropWhile_cons_of_neg (by simp [stop]), List.append_nil, Decimal.parse_render]
    rfl

theorem readMember_render (m : Member) {c : Char} (stop : numeric c = false) (rest : List Char) :
    readMember (renderMember m ++ c :: rest) = some (m, c :: rest) := by
  obtain ⟨name, v⟩ := m
  change (readText ((name.flatMap escape ++ ['"'] ++ ':' :: renderScalar v) ++ c :: rest)).bind _ = _
  rw [List.append_assoc, List.append_assoc, List.singleton_append, readText_quote, Option.bind_some]
  change (readScalar (renderScalar v ++ c :: rest)).map _ = _
  rw [readScalar_render v stop]
  rfl

theorem readMembers_render {members : List Member} (nonempty : members ≠ []) {limit : Nat}
    (enough : members.length ≤ limit) :
    readMembers limit (renderMembers members ++ ['\x7d']) = some members := by
  induction members generalizing limit with
  | nil => exact absurd rfl nonempty
  | cons m members ih =>
    obtain ⟨limit, rfl⟩ := Nat.exists_eq_add_of_lt (Nat.lt_of_lt_of_le (Nat.succ_pos _) enough)
    rw [Nat.zero_add]
    cases members with
    | nil =>
      change (readMember (renderMember m ++ ['\x7d'])).bind _ = _
      rw [readMember_render m (by decide)]
      rfl
    | cons m' rest =>
      have enough' : (m' :: rest).length ≤ limit := by
        simp only [List.length_cons] at enough ⊢
        omega
      change (readMember (renderMember m ++ ',' :: renderMembers (m' :: rest) ++ ['\x7d'])).bind _ = _
      rw [List.append_assoc, List.cons_append, readMember_render m (by decide), Option.bind_some]
      change (readMembers limit (renderMembers (m' :: rest) ++ ['\x7d'])).map _ = _
      rw [ih (List.cons_ne_nil _ _) enough']
      rfl

theorem length_le_renderMembers (members : List Member) :
    members.length ≤ (renderMembers members).length := by
  induction members with
  | nil => exact Nat.zero_le _
  | cons m members ih =>
    cases members with
    | nil =>
      change 1 ≤ (renderMember m).length
      simp [renderMember, quote]
    | cons m' rest =>
      change _ ≤ (renderMember m ++ ',' :: renderMembers (m' :: rest)).length
      simp only [List.length_cons, List.length_append] at ih ⊢
      omega

/-- What is written is read back. -/
theorem readObject_renderObject (members : List Member) :
    readObject (renderObject members) = some members := by
  cases members with
  | nil => rfl
  | cons m rest =>
    have more : renderMembers (m :: rest) ++ ['\x7d'] ≠ ['\x7d'] := by
      intro same
      have short := congrArg List.length same
      have long := length_le_renderMembers (m :: rest)
      simp only [List.length_append, List.length_cons, List.length_nil] at short long
      omega
    have enough : (m :: rest).length ≤ (renderMembers (m :: rest) ++ ['\x7d']).length := by
      rw [List.length_append]
      exact Nat.le_add_right_of_le (length_le_renderMembers (m :: rest))
    rw [renderObject, readObject, if_pos rfl, if_neg more]
    exact readMembers_render (List.cons_ne_nil _ _) enough

end MarginGuard.Foundation.Json
