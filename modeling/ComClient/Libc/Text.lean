/-
  ComClient.Libc.Text — the functions of the C library that work on text, on bytes.

  A `char *` that points to a string is memory with a zero byte at some place behind the
  pointer (`CStr`); its `text` is what stands before it. `strstr` and `strtol` are given
  the text and no more, for they stop at its end. `printf` is the conversions `%s` and `%d`;
  `snprintf` stores at most so many bytes of what it makes, the terminator among them.
-/

import ComClient.Transport.Memory

namespace ComClient.Libc

open ComClient.Transport

def byte (c : Char) : Byte := BitVec.ofNat 8 c.toNat

def ascii (s : String) : List Byte := s.toList.map byte

/-- `"\r\n"` -/
def crlf : List Byte := ascii "\r\n"

/-! ## Strings -/

structure CStr where
  mem : Mem
  len : Nat
  nonzero : ∀ i : Nat, i < len → mem i ≠ 0
  ends : mem len = 0

def CStr.text (s : CStr) : List Byte := load s.mem 0 s.len

/-- A literal: `bs`, and the terminator. -/
def CStr.of (bs : List Byte) (h : 0 ∉ bs) : CStr where
  mem := memOf bs
  len := bs.length
  nonzero i hi := by
    rw [memOf, store_in _ _ _ (by omega) (by omega), List.getD_eq_getElem _ _ (by omega)]
    exact fun h0 => h (h0 ▸ List.getElem_mem _)
  ends := by rw [memOf, store_out _ _ _ (by omega)]

/-- `strlen` of a string whose zero is among the first `room` bytes. -/
def strlen (m : Mem) (room : Nat) : Option Nat := (load m 0 room).findIdx? (· == 0)

@[simp] theorem CStr.length_text (s : CStr) : s.text.length = s.len := length_load _ _ _

theorem CStr.text_nonzero (s : CStr) : 0 ∉ s.text := by
  intro h
  obtain ⟨i, hi, h0⟩ := List.mem_map.mp h
  rw [Int.zero_add] at h0
  exact s.nonzero i (List.mem_range.mp hi) h0

/-- A text and its terminator, read back. -/
theorem strlen_text {m : Mem} {text : List Byte} {room : Nat} (h : load m 0 (text.length + 1) = text ++ [0])
    (h0 : 0 ∉ text) (hroom : text.length < room) : strlen m room = some text.length := by
  obtain ⟨k, rfl⟩ := Nat.exists_eq_add_of_le (Nat.succ_le_of_lt hroom)
  have hnone : text.findIdx? (· == 0) = none := by
    rw [List.findIdx?_eq_none_iff]
    intro b hb
    rw [beq_eq_false_iff_ne]
    exact fun hb0 => h0 (hb0 ▸ hb)
  rw [strlen, load_add, Nat.succ_eq_add_one, h, List.append_assoc, List.findIdx?_append, hnone,
    List.singleton_append, List.findIdx?_cons]
  simp

/-! ## `strstr` -/

/-- The rest of the text from the first place on at which `needle` stands. -/
def strstr (needle : List Byte) : List Byte → Option (List Byte)
  | [] => if needle.isPrefixOf [] then some [] else none
  | b :: bs => if needle.isPrefixOf (b :: bs) then some (b :: bs) else strstr needle bs

theorem strstr_here {needle text : List Byte} (h : needle <+: text) : strstr needle text = some text := by
  cases text with
  | nil => rw [strstr, if_pos (List.isPrefixOf_iff_prefix.mpr h)]
  | cons b bs => rw [strstr, if_pos (List.isPrefixOf_iff_prefix.mpr h)]

/-- It stands here, or it is looked for from the next byte on. -/
theorem strstr_cons_eq_some {needle bs found : List Byte} {b : Byte} (h : strstr needle (b :: bs) = some found) :
    (needle <+: b :: bs ∧ found = b :: bs) ∨ (¬ needle <+: b :: bs ∧ strstr needle bs = some found) := by
  rw [strstr] at h
  by_cases hpre : needle.isPrefixOf (b :: bs) = true
  · rw [if_pos hpre] at h
    cases h
    exact Or.inl ⟨List.isPrefixOf_iff_prefix.mp hpre, rfl⟩
  · rw [if_neg hpre] at h
    exact Or.inr ⟨fun hp => hpre (List.isPrefixOf_iff_prefix.mpr hp), h⟩

theorem strstr_cons_of_not_prefix {needle bs : List Byte} {b : Byte} (h : ¬ needle <+: b :: bs) :
    strstr needle (b :: bs) = strstr needle bs := by
  rw [strstr, if_neg fun hp => h (List.isPrefixOf_iff_prefix.mp hp)]

/-- What is found is an end of the text that begins with `needle`. -/
theorem strstr_found {needle text found : List Byte} (h : strstr needle text = some found) :
    found <:+ text ∧ needle <+: found := by
  induction text with
  | nil =>
    rw [strstr] at h
    obtain ⟨hpre, h⟩ := Option.ite_none_right_eq_some.mp h
    cases h
    exact ⟨List.suffix_rfl, List.isPrefixOf_iff_prefix.mp hpre⟩
  | cons b bs ih =>
    rcases strstr_cons_eq_some h with ⟨hpre, rfl⟩ | ⟨-, h⟩
    · exact ⟨List.suffix_rfl, hpre⟩
    · obtain ⟨hsuf, hfound⟩ := ih h
      exact ⟨hsuf.trans (List.suffix_cons b bs), hfound⟩

/-- What comes behind the text does not change the place. -/
theorem strstr_append {needle text found : List Byte} (h : strstr needle text = some found) (more : List Byte) :
    strstr needle (text ++ more) = some (found ++ more) := by
  induction text with
  | nil =>
    obtain ⟨hsuf, hpre⟩ := strstr_found h
    have hnil : found = [] := List.suffix_nil.mp hsuf
    subst hnil
    exact strstr_here (hpre.trans (List.nil_prefix))
  | cons b bs ih =>
    rcases strstr_cons_eq_some h with ⟨hpre, rfl⟩ | ⟨hpre, h⟩
    · exact strstr_here (hpre.trans (List.prefix_append _ _))
    · have hfound := strstr_found h
      -- `needle` fits into `bs`, so it cannot stand at `b` by reaching into `more`.
      have hlen : needle.length ≤ (b :: bs).length := by
        have h1 := hfound.1.length_le
        have h2 := hfound.2.length_le
        simp only [List.length_cons]
        omega
      have hmore : ¬ needle <+: b :: (bs ++ more) := fun hp =>
        hpre (List.prefix_of_prefix_length_le hp ⟨more, rfl⟩ hlen)
      rw [List.cons_append, strstr_cons_of_not_prefix hmore]
      exact ih h

theorem strstr_eq_none_iff {needle text : List Byte} : strstr needle text = none ↔ ¬ needle <:+: text := by
  induction text with
  | nil =>
    rw [strstr, ite_eq_right_iff, List.infix_nil, List.isPrefixOf_iff_prefix, List.prefix_nil]
    simp
  | cons b bs ih =>
    rw [List.infix_cons_iff, strstr, ← List.isPrefixOf_iff_prefix]
    by_cases hpre : needle.isPrefixOf (b :: bs) = true
    · simp [hpre]
    · rw [if_neg hpre, ih]
      simp [hpre]

/-- `needle` stands nowhere before the place that is found. -/
theorem strstr_first {needle text found before after : List Byte} (h : strstr needle text = some found)
    (htext : text = before ++ needle ++ after) : text.length ≤ before.length + found.length := by
  induction text generalizing before with
  | nil => exact Nat.zero_le _
  | cons b bs ih =>
    rcases strstr_cons_eq_some h with ⟨-, rfl⟩ | ⟨hpre, h⟩
    · exact Nat.le_add_left _ _
    · cases before with
      | nil => exact absurd ⟨after, htext.symm⟩ hpre
      | cons c before =>
        have hbs : bs = before ++ needle ++ after := (List.cons.inj htext).2
        have hle := ih h hbs
        simp only [List.length_cons]
        omega

/-- `needle` does not stand where its first byte does not. -/
theorem strstr_skip {b : Byte} {needle before : List Byte} (h : b ∉ before) (text : List Byte) :
    strstr (b :: needle) (before ++ text) = strstr (b :: needle) text := by
  induction before with
  | nil => rfl
  | cons c before ih =>
    rw [List.mem_cons, not_or] at h
    obtain ⟨hc, hbefore⟩ := h
    have hpre : ¬ b :: needle <+: c :: (before ++ text) := by
      rw [List.cons_prefix_cons, not_and]
      exact fun heq => absurd heq hc
    rw [List.cons_append, strstr_cons_of_not_prefix hpre]
    exact ih hbefore

/-! ## `strtol` -/

/-- In the "C" locale. -/
def isspace (b : Byte) : Bool := b == 0x20 || decide (0x09 ≤ b ∧ b ≤ 0x0d)

def isdigit (b : Byte) : Bool := decide (0x30 ≤ b ∧ b ≤ 0x39)

/-- The digits `text` begins with, as a number. -/
def number (text : List Byte) : Nat := (text.takeWhile isdigit).foldl (fun n b => 10 * n + (b.toNat - 0x30)) 0

/-- `strtol(text, NULL, 10)`, into a `long` of 64 bits. -/
def strtol (text : List Byte) : Int :=
  let text := text.dropWhile isspace
  let n : Int :=
    if text.head? = some (byte '-') then -number text.tail
    else if text.head? = some (byte '+') then number text.tail
    else number text
  max (-2 ^ 63) (min n (2 ^ 63 - 1))

/-- A number ends where the digits do. -/
theorem number_append {digits rest : List Byte} (hdigits : ∀ b ∈ digits, isdigit b = true)
    (hrest : ∀ b, rest.head? = some b → isdigit b = false) : number (digits ++ rest) = number digits := by
  have hnone : rest.takeWhile isdigit = [] := by
    cases rest with
    | nil => rfl
    | cons b rest => rw [List.takeWhile_cons, hrest b rfl, if_neg Bool.false_ne_true]
  have hall : digits.takeWhile isdigit = digits := List.takeWhile_eq_self_iff.mpr hdigits
  rw [number, number, List.takeWhile_append_of_pos hdigits, hnone, hall, List.append_nil]

theorem isdigit_bounds {b : Byte} (h : isdigit b = true) : 0x30 ≤ b.toNat ∧ b.toNat ≤ 0x39 := of_decide_eq_true h

theorem isspace_of_isdigit {b : Byte} (h : isdigit b = true) : isspace b = false := by
  obtain ⟨h1, h2⟩ := isdigit_bounds h
  rcases hb : isspace b
  · rfl
  · simp only [isspace, Bool.or_eq_true, beq_iff_eq, decide_eq_true_eq] at hb
    rcases hb with hb | hb
    · rw [hb] at h1
      exact absurd h1 (by decide)
    · have hle : b.toNat ≤ 0x0d := hb.2
      omega

/-- Blanks are passed over. -/
theorem dropWhile_blanks {blanks text : List Byte} (hblanks : ∀ b ∈ blanks, isspace b = true)
    (htext : ∀ b, text.head? = some b → isspace b = false) : (blanks ++ text).dropWhile isspace = text := by
  rw [List.dropWhile_append_of_pos hblanks]
  cases text with
  | nil => rfl
  | cons b text => rw [List.dropWhile_cons, htext b rfl, if_neg Bool.false_ne_true]

/-- A digit is no blank and no sign. -/
theorem strtol_digit {b : Byte} {text : List Byte} (h : isdigit b = true) :
    strtol (b :: text) = max (-2 ^ 63) (min (number (b :: text) : Int) (2 ^ 63 - 1)) := by
  obtain ⟨h1, -⟩ := isdigit_bounds h
  have hspace : isspace b = false := isspace_of_isdigit h
  have hminus : b ≠ byte '-' := by
    intro hb
    rw [hb] at h1
    exact absurd h1 (by decide)
  have hplus : b ≠ byte '+' := by
    intro hb
    rw [hb] at h1
    exact absurd h1 (by decide)
  simp [strtol, hspace, hminus, hplus]

theorem strtol_append {digits rest : List Byte} (hdigits : ∀ b ∈ digits, isdigit b = true) (hne : digits ≠ [])
    (hrest : ∀ b, rest.head? = some b → isdigit b = false) : strtol (digits ++ rest) = strtol digits := by
  have hnumber := number_append hdigits hrest
  cases digits with
  | nil => exact absurd rfl hne
  | cons b digits =>
    have hb := hdigits b List.mem_cons_self
    rw [List.cons_append] at hnumber ⊢
    rw [strtol_digit hb, strtol_digit hb, hnumber]

/-- The text begins with blanks, perhaps a sign, and all the digits of a number. -/
inductive Numeral : List Byte → Int → Prop
  | plain (blanks digits rest : List Byte) : (∀ b ∈ blanks, isspace b = true) → digits ≠ [] →
      (∀ b ∈ digits, isdigit b = true) → (∀ b, rest.head? = some b → isdigit b = false) →
      Numeral (blanks ++ (digits ++ rest)) (number digits)
  | plus (blanks digits rest : List Byte) : (∀ b ∈ blanks, isspace b = true) → digits ≠ [] →
      (∀ b ∈ digits, isdigit b = true) → (∀ b, rest.head? = some b → isdigit b = false) →
      Numeral (blanks ++ byte '+' :: (digits ++ rest)) (number digits)
  | minus (blanks digits rest : List Byte) : (∀ b ∈ blanks, isspace b = true) → digits ≠ [] →
      (∀ b ∈ digits, isdigit b = true) → (∀ b, rest.head? = some b → isdigit b = false) →
      Numeral (blanks ++ byte '-' :: (digits ++ rest)) (-number digits)

/-- A numeral is read to its end, and brought into the range of a `long`. -/
theorem strtol_numeral {text : List Byte} {v : Int} (h : Numeral text v) :
    strtol text = max (-2 ^ 63) (min v (2 ^ 63 - 1)) := by
  cases h with
  | plain blanks digits rest hblanks hne hdigits hrest =>
    cases digits with
    | nil => exact absurd rfl hne
    | cons d digits =>
      have hd := hdigits d List.mem_cons_self
      have hdrop : (blanks ++ d :: (digits ++ rest)).dropWhile isspace = d :: (digits ++ rest) := by
        refine dropWhile_blanks hblanks ?_
        intro b hb
        cases hb
        exact isspace_of_isdigit hd
      have hself : (d :: (digits ++ rest)).dropWhile isspace = d :: (digits ++ rest) := by
        rw [List.dropWhile_cons, isspace_of_isdigit hd, if_neg Bool.false_ne_true]
      have hread : strtol (blanks ++ d :: (digits ++ rest)) = strtol (d :: (digits ++ rest)) := by
        simp only [strtol, hdrop, hself]
      rw [List.cons_append, hread, strtol_digit hd, ← List.cons_append, number_append hdigits hrest]
  | plus blanks digits rest hblanks hne hdigits hrest =>
    have hdrop : (blanks ++ byte '+' :: (digits ++ rest)).dropWhile isspace = byte '+' :: (digits ++ rest) := by
      refine dropWhile_blanks hblanks ?_
      intro b hb
      cases hb
      decide
    have hsign : byte '+' ≠ byte '-' := by decide
    simp [strtol, hdrop, hsign, number_append hdigits hrest]
  | minus blanks digits rest hblanks hne hdigits hrest =>
    have hdrop : (blanks ++ byte '-' :: (digits ++ rest)).dropWhile isspace = byte '-' :: (digits ++ rest) := by
      refine dropWhile_blanks hblanks ?_
      intro b hb
      cases hb
      decide
    simp [strtol, hdrop, number_append hdigits hrest]

theorem dropWhile_head {p : Byte → Bool} {text : List Byte} {b : Byte} (h : (text.dropWhile p).head? = some b) :
    p b = false := by
  induction text with
  | nil => cases h
  | cons c text ih =>
    rw [List.dropWhile_cons] at h
    by_cases hc : p c = true
    · rw [if_pos hc] at h
      exact ih h
    · rw [if_neg hc] at h
      cases h
      exact Bool.eq_false_iff.mpr hc

theorem number_no_digits {text : List Byte} (h : text.takeWhile isdigit = []) : number text = 0 := by
  rw [number, h]
  rfl

/-- Where there is no numeral, the value is 0. -/
theorem numeral_or_zero (text : List Byte) : (∃ v, Numeral text v) ∨ strtol text = 0 := by
  have hblanks : ∀ b ∈ text.takeWhile isspace, isspace b = true := fun b hb => List.mem_takeWhile_imp hb
  have hsplit : text.takeWhile isspace ++ text.dropWhile isspace = text := List.takeWhile_append_dropWhile
  have hdigits : ∀ t : List Byte, ∀ b ∈ t.takeWhile isdigit, isdigit b = true := fun t b hb => List.mem_takeWhile_imp hb
  have hrest : ∀ (t : List Byte) (b : Byte), (t.dropWhile isdigit).head? = some b → isdigit b = false :=
    fun t b hb => dropWhile_head hb
  have hparts : ∀ t : List Byte, t.takeWhile isdigit ++ t.dropWhile isdigit = t := fun t =>
    List.takeWhile_append_dropWhile
  by_cases hminus : (text.dropWhile isspace).head? = some (byte '-')
  · obtain ⟨t, ht⟩ := List.head?_eq_some_iff.mp hminus
    by_cases hne : t.takeWhile isdigit = []
    · right
      simp [strtol, ht, number_no_digits hne]
    · left
      have hnum := Numeral.minus (text.takeWhile isspace) (t.takeWhile isdigit) _ hblanks hne (hdigits t) (hrest t)
      rw [hparts, ← ht, hsplit] at hnum
      exact ⟨_, hnum⟩
  · by_cases hplus : (text.dropWhile isspace).head? = some (byte '+')
    · obtain ⟨t, ht⟩ := List.head?_eq_some_iff.mp hplus
      have hsign : byte '+' ≠ byte '-' := by decide
      by_cases hne : t.takeWhile isdigit = []
      · right
        simp [strtol, ht, hsign, number_no_digits hne]
      · left
        have hnum := Numeral.plus (text.takeWhile isspace) (t.takeWhile isdigit) _ hblanks hne (hdigits t) (hrest t)
        rw [hparts, ← ht, hsplit] at hnum
        exact ⟨_, hnum⟩
    · by_cases hne : (text.dropWhile isspace).takeWhile isdigit = []
      · right
        simp only [strtol, if_neg hminus, if_neg hplus, number_no_digits hne]
        decide
      · left
        have hnum := Numeral.plain (text.takeWhile isspace) ((text.dropWhile isspace).takeWhile isdigit) _ hblanks hne
          (hdigits _) (hrest (text.dropWhile isspace))
        rw [hparts, hsplit] at hnum
        exact ⟨_, hnum⟩

/-! ## `printf` -/

inductive Arg where
  | str (text : List Byte)
  | int (n : Int)

/-- `%d` -/
def decimal (n : Int) : List Byte :=
  (if n < 0 then [byte '-'] else []) ++ (Nat.toDigits 10 n.natAbs).map byte

/-- What a format makes of its arguments. -/
def printf : List Char → List Arg → List Byte
  | '%' :: 's' :: format, .str text :: args => text ++ printf format args
  | '%' :: 'd' :: format, .int n :: args => decimal n ++ printf format args
  | c :: format, args => byte c :: printf format args
  | [], _ => []

/-- The `text` is cut so that it fits with its terminator into `size` bytes. -/
def snprintf (m : Mem) (size : Nat) (text : List Byte) : Mem := store m 0 (text.take (size - 1) ++ [0])

theorem byte_toNat_of_isDigit {c : Char} (h : c.isDigit = true) :
    (byte c).toNat = c.toNat ∧ 0x30 ≤ c.toNat ∧ c.toNat ≤ 0x39 := by
  simp only [Char.isDigit, Bool.and_eq_true, decide_eq_true_eq] at h
  obtain ⟨h1, h2⟩ := h
  have h1 : 48 ≤ c.toNat := h1
  have h2 : c.toNat ≤ 57 := h2
  refine ⟨?_, h1, h2⟩
  rw [byte, BitVec.toNat_ofNat]
  omega

theorem isdigit_byte {c : Char} (h : c.isDigit = true) : isdigit (byte c) = true := by
  obtain ⟨heq, h1, h2⟩ := byte_toNat_of_isDigit h
  refine decide_eq_true ⟨?_, ?_⟩
  · rw [BitVec.le_def, heq]
    exact h1
  · rw [BitVec.le_def, heq]
    exact h2

theorem decimal_nonzero (n : Int) : 0 ∉ decimal n := by
  intro h
  rcases List.mem_append.mp h with h | h
  · split at h
    · exact absurd h (by decide)
    · cases h
  · obtain ⟨c, hc, h0⟩ := List.mem_map.mp h
    have hdigit := isdigit_byte (Nat.isDigit_of_mem_toDigits (by omega) (by omega) hc)
    rw [h0] at hdigit
    exact absurd hdigit (by decide)

theorem decimal_natCast (n : Nat) : decimal n = (Nat.toDigits 10 n).map byte := by
  rw [decimal, if_neg (by omega), List.nil_append, Int.natAbs_natCast]

theorem isdigit_of_mem_decimal {n : Nat} {b : Byte} (h : b ∈ decimal n) : isdigit b = true := by
  rw [decimal_natCast] at h
  obtain ⟨c, hc, rfl⟩ := List.mem_map.mp h
  exact isdigit_byte (Nat.isDigit_of_mem_toDigits (by omega) (by omega) hc)

theorem decimal_ne_nil (n : Nat) : decimal n ≠ [] := by
  rw [decimal_natCast]
  exact fun h => Nat.toDigits_ne_nil (List.map_eq_nil_iff.mp h)

/-- A number that is written out is read back. -/
theorem number_decimal (n : Nat) : number (decimal n) = n := by
  have hfold : ∀ (cs : List Char), (∀ c ∈ cs, c.isDigit = true) → ∀ init : Nat,
      (cs.map byte).foldl (fun n b => 10 * n + (b.toNat - 0x30)) init = Nat.ofDigitChars 10 cs init := by
    intro cs hcs
    induction cs with
    | nil => exact fun init => rfl
    | cons c cs ih =>
      intro init
      obtain ⟨hc, hcs⟩ := List.forall_mem_cons.mp hcs
      rw [List.map_cons, List.foldl_cons, Nat.ofDigitChars_cons, (byte_toNat_of_isDigit hc).1]
      exact ih hcs _
  have hall : (decimal n).takeWhile isdigit = decimal n :=
    List.takeWhile_eq_self_iff.mpr fun b hb => isdigit_of_mem_decimal hb
  rw [number, hall, decimal_natCast, hfold _ (fun c hc => Nat.isDigit_of_mem_toDigits (by omega) (by omega) hc),
    Nat.ofDigitChars_ten_toDigits]

def Arg.text : Arg → List Byte
  | .str text => text
  | .int n => decimal n

/-- Nothing that goes in is a terminator, so the text has none. -/
theorem printf_nonzero {format : List Char} {args : List Arg} (hformat : 0 ∉ format.map byte)
    (hargs : ∀ a ∈ args, 0 ∉ a.text) : 0 ∉ printf format args := by
  fun_induction printf format args with
  | case1 format text args ih =>
    simp only [List.map_cons, List.mem_cons, not_or] at hformat
    obtain ⟨htext, hargs⟩ := List.forall_mem_cons.mp hargs
    rw [List.mem_append, not_or]
    exact ⟨htext, ih hformat.2.2 hargs⟩
  | case2 format n args ih =>
    simp only [List.map_cons, List.mem_cons, not_or] at hformat
    obtain ⟨-, hargs⟩ := List.forall_mem_cons.mp hargs
    rw [List.mem_append, not_or]
    exact ⟨decimal_nonzero n, ih hformat.2.2 hargs⟩
  | case3 c format args _ _ ih =>
    simp only [List.map_cons, List.mem_cons, not_or] at hformat
    rw [List.mem_cons, not_or]
    exact ⟨hformat.1, ih hformat.2 hargs⟩
  | case4 => exact List.not_mem_nil

/-- Without a conversion a format is its own text. -/
theorem printf_plain {cs : List Char} (h : '%' ∉ cs) (format : List Char) (args : List Arg) :
    printf (cs ++ format) args = cs.map byte ++ printf format args := by
  induction cs with
  | nil => rfl
  | cons c cs ih =>
    rw [List.mem_cons, not_or] at h
    obtain ⟨hc, hcs⟩ := h
    have hne : c ≠ '%' := fun heq => hc heq.symm
    simp [printf, hne, ih hcs]

theorem printf_end {cs : List Char} (h : '%' ∉ cs) (args : List Arg) : printf cs args = cs.map byte := by
  have hplain := printf_plain h [] args
  rwa [List.append_nil, printf, List.append_nil] at hplain

/-- A text that fits is stored whole. -/
theorem load_snprintf {m : Mem} {size : Nat} {text : List Byte} (h : text.length < size) :
    load (snprintf m size text) 0 (text.length + 1) = text ++ [0] := by
  have htake : text.take (size - 1) = text := List.take_of_length_le (by omega)
  have hwhole := load_store_same m 0 (text ++ [0])
  rw [List.length_append, List.length_singleton] at hwhole
  rw [snprintf, htake, hwhole]

theorem load_snprintf_text {m : Mem} {size : Nat} {text : List Byte} (h : text.length < size) :
    load (snprintf m size text) 0 text.length = text := by
  rw [← load_take _ _ (Nat.le_succ text.length), Nat.succ_eq_add_one, load_snprintf h, List.take_left' rfl]

/-- What lies behind it is left alone. -/
theorem snprintf_out (m : Mem) (size : Nat) {text : List Byte} {i : Int} (h : text.length < i) :
    snprintf m size text i = m i := by
  refine store_out _ _ _ (Or.inr ?_)
  rw [List.length_append, List.length_take, List.length_singleton]
  omega

/-- Whatever was there, nothing is stored beyond the first `room` bytes if and only if the text
    and its terminator fit into them. -/
theorem snprintf_inside_iff {size room : Nat} (hroom : room < size) (text : List Byte) :
    (∀ (m : Mem) (i : Int), i < 0 ∨ room ≤ i → snprintf m size text i = m i) ↔ text.length < room := by
  constructor
  · intro hinside
    by_contra hlen
    -- A memory that holds another byte at `room` than the one stored there.
    have hkept := hinside (fun _ => (text.take (size - 1) ++ [0]).getD room 0 + 1) room (Or.inr (Int.le_refl _))
    rw [snprintf, store_in _ _ _ (by omega) (by simp; omega), Int.sub_zero, Int.toNat_natCast] at hkept
    exact absurd hkept.symm (by simp)
  · intro hlen m i hi
    rcases hi with hi | hi
    · exact store_out _ _ _ (Or.inl hi)
    · exact snprintf_out m size (by omega)

/-- The terminator is among the first `room` bytes if and only if the text leaves it a place
    there. -/
theorem strlen_snprintf_iff (m : Mem) {size room : Nat} (hroom : room < size) {text : List Byte} (h0 : 0 ∉ text) :
    (∃ n, strlen (snprintf m size text) room = some n) ↔ text.length < room := by
  constructor
  · rintro ⟨n, hn⟩
    by_contra hlen
    have hload : load (snprintf m size text) 0 room = text.take room := by
      have htake : (text.take (size - 1)).take room = text.take room := by
        rw [List.take_take, Nat.min_eq_left (by omega)]
      have hwhole := load_store_same m 0 (text.take (size - 1) ++ [0])
      have hprefix := load_take (snprintf m size text) 0
        (show room ≤ (text.take (size - 1) ++ [0]).length by simp; omega)
      rw [← hprefix, snprintf, hwhole, List.take_append_of_le_length (by simp; omega), htake]
    rw [strlen, hload] at hn
    obtain ⟨hlt, hzero, -⟩ := List.findIdx?_eq_some_iff_getElem.mp hn
    have hmem : (text.take room)[n] ∈ text := List.mem_of_mem_take (List.getElem_mem hlt)
    rw [beq_iff_eq.mp hzero] at hmem
    exact h0 hmem
  · intro hlen
    exact ⟨text.length, strlen_text (load_snprintf (by omega)) h0 hlen⟩

/-- There is a terminator. -/
theorem strlen_snprintf (m : Mem) {size : Nat} (hsize : 0 < size) (text : List Byte) :
    ∃ n, strlen (snprintf m size text) size = some n := by
  have hlen : (text.take (size - 1)).length < size := by
    rw [List.length_take]
    omega
  have hmem : (0 : Byte) ∈ load (snprintf m size text) 0 size := by
    refine List.mem_map.mpr ⟨(text.take (size - 1)).length, List.mem_range.mpr hlen, ?_⟩
    rw [snprintf, Int.zero_add, store_in _ _ _ (by omega) (by simp), Int.sub_zero, Int.toNat_natCast,
      List.getD_append_right _ _ _ _ (Nat.le_refl _), Nat.sub_self]
    rfl
  rcases hfound : strlen (snprintf m size text) size with _ | n
  · rw [strlen, List.findIdx?_eq_none_iff] at hfound
    exact absurd (hfound 0 hmem) (by decide)
  · exact ⟨n, rfl⟩

end ComClient.Libc
