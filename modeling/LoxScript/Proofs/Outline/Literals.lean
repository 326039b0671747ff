import LoxScript.Syntax.Outline

/-!
Literals in an outline.

A quoted text is on one line, and the text can be read back from it.  Numbers are written with a few
characters only, so that no number looks like another literal.
-/

namespace LoxScript
namespace Quoted

/-! ### Hexadecimal digits -/

def digitValue (c : Char) : Nat :=
  if c.isDigit then c.toNat - '0'.toNat else c.toNat - 'a'.toNat + 10

/-- The number that hexadecimal digits stand for. -/
def value (digits : List Char) : Nat := digits.foldl (fun n c => 16 * n + digitValue c) 0

theorem digitValue_digitChar : ∀ n < 16, digitValue n.digitChar = n := by decide

theorem value_append_singleton (digits : List Char) (c : Char) :
    value (digits ++ [c]) = 16 * value digits + digitValue c := by
  rw [value, List.foldl_append]
  rfl

theorem value_toDigits (n : Nat) : value (Nat.toDigits 16 n) = n := by
  induction n using Nat.strongRecOn with
  | _ n ih =>
    by_cases hn : n < 16
    · rw [Nat.toDigits_of_lt_base hn]
      exact (Nat.zero_add _).trans (digitValue_digitChar n hn)
    · rw [Nat.toDigits_of_base_le (by decide) (Nat.le_of_not_lt hn), value_append_singleton,
        ih (n / 16) (by omega), digitValue_digitChar (n % 16) (Nat.mod_lt n (by decide))]
      omega

theorem value_replicate_zero (k : Nat) (digits : List Char) :
    value (List.replicate k '0' ++ digits) = value digits := by
  induction k with
  | zero => rfl
  | succ k ih => exact ih

theorem value_hex (width n : Nat) : value (hex width n).toList = n := by
  rw [hex, String.toList_ofList, value_replicate_zero, value_toDigits]

theorem length_hex {width n : Nat} (hw : 0 < width) (hn : n < Nat.pow 16 width) :
    (hex width n).toList.length = width := by
  have hle := (Nat.length_toDigits_le_iff (b := 16) (by decide) hw).2 hn
  rw [hex, String.toList_ofList, List.length_append, List.length_replicate]
  exact Nat.sub_add_cancel hle

theorem ne_newline_of_mem_toDigits {n : Nat} {c : Char} (h : c ∈ Nat.toDigits 16 n) : c ≠ '\n' := by
  induction n using Nat.strongRecOn with
  | _ n ih =>
    have hdigit : ∀ k < 16, Nat.digitChar k ≠ '\n' := by decide
    by_cases hn : n < 16
    · rw [Nat.toDigits_of_lt_base hn, List.mem_singleton] at h
      exact h ▸ hdigit n hn
    · rw [Nat.toDigits_of_base_le (by decide) (Nat.le_of_not_lt hn), List.mem_append,
        List.mem_singleton] at h
      rcases h with h | rfl
      · exact ih (n / 16) (by omega) h
      · exact hdigit _ (Nat.mod_lt n (by decide))

theorem ne_newline_of_mem_hex {width n : Nat} {c : Char} (h : c ∈ (hex width n).toList) :
    c ≠ '\n' := by
  rw [hex, String.toList_ofList, List.mem_append] at h
  rcases h with h | h
  · rw [List.eq_of_mem_replicate h]
    decide
  · exact ne_newline_of_mem_toDigits h

/-! ### Escaped characters -/

/-- The character at the start of an escaped text, and what follows it. -/
def read : List Char → Option (Char × List Char)
  | '\\' :: 'n' :: rest => some ('\n', rest)
  | '\\' :: 'r' :: rest => some ('\r', rest)
  | '\\' :: 't' :: rest => some ('\t', rest)
  | '\\' :: 'x' :: rest => some (Char.ofNat (value (rest.take 2)), rest.drop 2)
  | '\\' :: 'u' :: rest => some (Char.ofNat (value (rest.take 4)), rest.drop 4)
  | '\\' :: 'U' :: rest => some (Char.ofNat (value (rest.take 8)), rest.drop 8)
  | '\\' :: c :: rest => some (c, rest)
  | c :: rest => some (c, rest)
  | [] => none

def IsQuote (c : Char) : Prop := c = '\'' ∨ c = '"'

theorem isQuote_quoteFor (text : List Char) : IsQuote (quoteFor text) := by
  unfold quoteFor
  split
  · exact .inr rfl
  · exact .inl rfl

theorem read_hex {c : Char} {width : Nat} (rest : List Char) (hw : 0 < width)
    (hc : c.toNat < Nat.pow 16 width) :
    (Char.ofNat (value (((hex width c.toNat).toList ++ rest).take width)),
      ((hex width c.toNat).toList ++ rest).drop width) = (c, rest) := by
  have hlen := length_hex hw hc
  rw [List.take_left' hlen, List.drop_left' hlen, value_hex, Char.ofNat_toNat]

/-- What is escaped is read back. -/
theorem read_escape {quote : Char} (hq : IsQuote quote) (c : Char) (rest : List Char) :
    read ((escape quote c).toList ++ rest) = some (c, rest) := by
  unfold escape
  split
  · rename_i hc
    rcases hc with rfl | rfl
    · rcases hq with rfl | rfl <;> simp [read]
    · simp [read]
  · rename_i hc
    split
    · simp [read, *]
    · split
      · simp [read, *]
      · split
        · simp [read, *]
        · split
          · have hne : c ≠ '\\' := fun h => hc (.inr h)
            simp [read, hne]
          · split
            · rename_i hlt
              rw [String.toList_append]
              exact congrArg some (read_hex rest (by decide) hlt)
            · split
              · rename_i hlt
                rw [String.toList_append]
                exact congrArg some (read_hex rest (by decide) hlt)
              · rw [String.toList_append]
                exact congrArg some (read_hex rest (by decide) (UInt32.toNat_lt c.val))

theorem escapes_injective {quote : Char} (hq : IsQuote quote) {s t : List Char}
    (h : s.flatMap (fun c => (escape quote c).toList) =
      t.flatMap (fun c => (escape quote c).toList)) : s = t := by
  induction s generalizing t with
  | nil =>
    cases t with
    | nil => rfl
    | cons d t =>
      have hd := congrArg read h
      rw [List.flatMap_cons, read_escape hq] at hd
      cases hd
  | cons c s ih =>
    have hc := congrArg read h
    rw [List.flatMap_cons, read_escape hq] at hc
    cases t with
    | nil => cases hc
    | cons d t =>
      rw [List.flatMap_cons, read_escape hq] at hc
      obtain ⟨rfl, hrest⟩ := Prod.mk.inj (Option.some.inj hc)
      rw [ih hrest]

theorem newline_notMem_escape {quote : Char} (hq : IsQuote quote) (c : Char) :
    '\n' ∉ (escape quote c).toList := by
  have hhex (k : Char) (hk : k ≠ '\n') (width : Nat) :
      '\n' ∉ '\\' :: k :: (hex width c.toNat).toList := by
    intro h
    rcases List.mem_cons.1 h with h | h
    · exact absurd h (by decide)
    · rcases List.mem_cons.1 h with h | h
      · exact hk h.symm
      · exact ne_newline_of_mem_hex h rfl
  unfold escape
  split
  · rename_i hc
    rcases hc with rfl | rfl
    · rcases hq with rfl | rfl <;> decide
    · decide
  · split
    · decide
    · split
      · decide
      · split
        · decide
        · split
          · rename_i hc _ _ _
            simpa [eq_comm] using hc
          · split
            · rw [String.toList_append]
              exact hhex 'x' (by decide) 2
            · split
              · rw [String.toList_append]
                exact hhex 'u' (by decide) 4
              · rw [String.toList_append]
                exact hhex 'U' (by decide) 8

end Quoted

theorem toList_quoted (s : String) : (quoted s).toList = Quoted.quoteFor s.toList ::
    (s.toList.flatMap (fun c => (Quoted.escape (Quoted.quoteFor s.toList) c).toList) ++
      [Quoted.quoteFor s.toList]) := by
  simp [quoted, String.toList_join, List.flatMap_map]

/-- A text can be read back from its quotation. -/
theorem quoted_injective {s t : String} (h : quoted s = quoted t) : s = t := by
  have h := congrArg String.toList h
  rw [toList_quoted, toList_quoted] at h
  obtain ⟨hq, h⟩ := List.cons.inj h
  rw [← hq] at h
  have hbody := Quoted.escapes_injective (Quoted.isQuote_quoteFor _) (List.append_cancel_right h)
  exact String.toList_inj.1 hbody

theorem newline_notMem_quoted (s : String) : '\n' ∉ (quoted s).toList := by
  have hq := Quoted.isQuote_quoteFor s.toList
  have hne : '\n' ≠ Quoted.quoteFor s.toList := by
    rcases hq with h | h <;> rw [h] <;> decide
  rw [toList_quoted]
  intro h
  rcases List.mem_cons.1 h with h | h
  · exact hne h
  · rcases List.mem_append.1 h with h | h
    · obtain ⟨c, -, hc⟩ := List.mem_flatMap.1 h
      exact Quoted.newline_notMem_escape hq c hc
    · exact hne (List.mem_singleton.1 h)

/-! ### Numbers -/

namespace Number

/-- The characters with which numbers are written. -/
def IsPart (c : Char) : Prop := c.isDigit = true ∨ c ∈ ".e+-NaInfity".toList

instance (c : Char) : Decidable (IsPart c) := inferInstanceAs (Decidable (_ ∨ _))

theorem isPart_of_all {s : String} (h : s.toList.all (fun c => decide (IsPart c)) = true) :
    ∀ c ∈ s.toList, IsPart c :=
  fun c hc => of_decide_eq_true (List.all_eq_true.1 h c hc)

theorem isPart_natural (n : Nat) : ∀ c ∈ (toString n).toList, IsPart c := by
  intro c hc
  rw [Nat.toString_eq_ofList_toDigits, String.toList_ofList] at hc
  exact .inl (Nat.isDigit_of_mem_toDigits (by decide) (by decide) hc)

theorem isPart_zeros (n : Nat) : ∀ c ∈ List.replicate n '0', IsPart c :=
  fun _ hc => .inl (List.eq_of_mem_replicate hc ▸ rfl)

theorem isPart_append {a b : String} (ha : ∀ c ∈ a.toList, IsPart c)
    (hb : ∀ c ∈ b.toList, IsPart c) : ∀ c ∈ (a ++ b).toList, IsPart c := by
  rw [String.toList_append]
  exact List.forall_mem_append.2 ⟨ha, hb⟩

theorem isPart_positional (d : Decimal) : ∀ c ∈ d.positional.toList, IsPart c := by
  have hdigits := isPart_natural d.digits
  unfold Decimal.positional
  dsimp only
  split
  · rw [String.toList_ofList]
    exact List.forall_mem_append.2 ⟨hdigits, isPart_zeros _⟩
  · have hpadded := List.forall_mem_append.2 ⟨isPart_zeros ((-d.exponent).toNat + 1 -
      (toString d.digits).toList.length), hdigits⟩
    refine isPart_append (isPart_append ?_ ?_) ?_
    · rw [String.toList_ofList]
      exact fun c hc => hpadded c (List.mem_of_mem_take hc)
    · exact isPart_of_all rfl
    · rw [String.toList_ofList]
      exact fun c hc => hpadded c (List.mem_of_mem_drop hc)

theorem isPart_scientific (d : Decimal) : ∀ c ∈ d.scientific.toList, IsPart c := by
  have hdigits := isPart_natural d.digits
  have hsize := isPart_natural d.leading.natAbs
  unfold Decimal.scientific
  refine isPart_append (isPart_append (isPart_append ?_ (isPart_of_all rfl)) ?_) ?_
  · split
    · exact List.forall_mem_nil _
    · rename_i c heq
      rw [heq] at hdigits
      simpa using hdigits
    · rename_i c rest _ heq
      rw [heq] at hdigits
      obtain ⟨hc, hrest⟩ := List.forall_mem_cons.1 hdigits
      refine isPart_append (isPart_append ?_ (isPart_of_all rfl)) ?_
      · simpa using hc
      · rw [String.toList_ofList]
        exact hrest
  · split <;> exact isPart_of_all rfl
  · split
    · exact isPart_append (isPart_of_all rfl) hsize
    · exact hsize

theorem isPart_display (x : Float) : ∀ c ∈ (display x).toList, IsPart c := by
  have hsign : ∀ c ∈ (if Dyadic.isNegative x then "-" else "").toList, IsPart c := by
    split <;> exact isPart_of_all rfl
  unfold display
  split
  · exact isPart_of_all rfl
  · dsimp only
    split
    · exact isPart_append hsign (isPart_of_all rfl)
    · split
      · exact isPart_append hsign (isPart_natural _)
      · refine isPart_append hsign ?_
        split
        · exact isPart_positional _
        · exact isPart_scientific _

/-- No number is written with any other character. -/
theorem display_ne (x : Float) {s : String} {c : Char} (hc : c ∈ s.toList) (h : ¬ IsPart c) :
    display x ≠ s := fun he => h (isPart_display x c (he ▸ hc))

end Number

namespace Literal

theorem quoted_ne (s : String) {t : String}
    (ht : some '\'' ≠ t.toList.head? ∧ some '"' ≠ t.toList.head?) : quoted s ≠ t := by
  rintro rfl
  rw [toList_quoted] at ht
  rcases Quoted.isQuote_quoteFor s.toList with h | h
  · exact ht.1 (congrArg some h.symm)
  · exact ht.2 (congrArg some h.symm)

theorem display_ne_word (x : Float) {s : String} (h : 'l' ∈ s.toList ∨ 'r' ∈ s.toList) :
    Number.display x ≠ s :=
  h.elim (fun h => Number.display_ne x h (by decide)) fun h => Number.display_ne x h (by decide)

theorem display_ne_quoted (x : Float) (s : String) : Number.display x ≠ quoted s := by
  have hq := Quoted.isQuote_quoteFor s.toList
  refine Number.display_ne x (c := Quoted.quoteFor s.toList) ?_ ?_
  · rw [toList_quoted]
    exact List.mem_cons_self
  · rcases hq with h | h <;> rw [h] <;> decide

/-- Literals are told apart by how they are written, if numbers are. -/
theorem outline_injective : {a b : Literal} → (∀ x y, a = .number x → b = .number y →
    Number.display x = Number.display y → x = y) → a.outline = b.outline → a = b
  | nil, nil, _, _ => rfl
  | bool a, bool b, _, h => by
    cases a <;> cases b <;> first | rfl | exact absurd h (by decide)
  | number x, number y, hxy, h => by rw [hxy x y rfl rfl h]
  | string s, string t, _, h => by rw [quoted_injective h]
  | nil, bool b, _, h | bool b, nil, _, h => by cases b <;> exact absurd h (by decide)
  | nil, number x, _, h => absurd h.symm (display_ne_word x (by decide))
  | number x, nil, _, h => absurd h (display_ne_word x (by decide))
  | nil, string s, _, h => absurd h.symm (quoted_ne s (by decide))
  | string s, nil, _, h => absurd h (quoted_ne s (by decide))
  | bool b, number x, _, h => by cases b <;> exact absurd h.symm (display_ne_word x (by decide))
  | number x, bool b, _, h => by cases b <;> exact absurd h (display_ne_word x (by decide))
  | bool b, string s, _, h => by cases b <;> exact absurd h.symm (quoted_ne s (by decide))
  | string s, bool b, _, h => by cases b <;> exact absurd h (quoted_ne s (by decide))
  | number x, string s, _, h => absurd h (display_ne_quoted x s)
  | string s, number x, _, h => absurd h.symm (display_ne_quoted x s)

theorem newline_notMem_outline (l : Literal) : '\n' ∉ l.outline.toList := by
  cases l with
  | nil => decide
  | bool b => cases b <;> decide
  | number x => exact fun h => absurd (Number.isPart_display x _ h) (by decide)
  | string s => exact newline_notMem_quoted s

end Literal
end LoxScript
