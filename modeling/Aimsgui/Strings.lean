import Mathlib.Data.List.Basic
import Mathlib.Data.List.Induction
import Mathlib.Data.List.TakeWhile
import Mathlib.Algebra.Order.Ring.Int
import Aimsgui.Draw

/-!
# Words and numbers in strings

Every command of the repository is a line of words: `str->unquoted` takes it apart
and `str->quoted` puts one together. `unquoted` reads the string from its end; a
word may hold parts between quotes, in which blanks are ordinary characters and a
doubled quote stands for one quote. If the quotes do not pair up, it adds one at
the end and starts over.

* `unquoted_quoted` — what `quoted` puts together, `unquoted` takes apart.
* `quoted_of_plain` — words without blanks and quotes are joined as they are,
  which is what `sprint("%s %s", …)` does without asking.
* `cstring`, `sprintq` — what the C below Limbo sees of a text, which ends at the first NUL,
  and what the format `%q` makes of it; `unquoted_sprintq` reads it back as far as that.
* `int_toString` — `int` reads back the decimal notation of a 32-bit number.
-/

namespace Aimsgui

/-- A character that separates words. -/
def isBlank (c : Char) : Bool := c = ' ' || c = '\t' || c = '\n'

/-- The word under way in `unquoted`: `word` is what was put aside at the last quote,
`seg` the characters read since, the slice `s[i+1:j]` of the source. -/
structure Word where
  seg : List Char
  word : List Char
  inquote : Bool

/-- The word as it stands. -/
def Word.text (w : Word) : List Char := w.seg ++ w.word

/-- The two loops of `unquoted` over the characters of the string, last one first:
between words (`none`) or inside one. The result says whether a quote is open. -/
def scan : Option Word → List (List Char) → List Char → List (List Char) × Bool
  | none, args, [] => (args, false)
  | some w, args, [] => (w.text :: args, w.inquote)
  | none, args, c :: cs =>
    if isBlank c then scan none args cs
    else if c = '\'' then scan (some ⟨[], [], true⟩) args cs
    else scan (some ⟨[c], [], false⟩) args cs
  | some w, args, c :: cs =>
    if isBlank c && !w.inquote then scan none (w.text :: args) cs
    else if c = '\'' then
      if w.inquote then
        match cs with
        -- a doubled quote: skip one, the other stays in the segment
        | '\'' :: cs' => scan (some ⟨['\''], w.text, true⟩) args cs'
        | cs => scan (some ⟨[], w.text, false⟩) args cs
      else scan (some ⟨[], w.text, true⟩) args cs
    else scan (some ⟨c :: w.seg, w.word, w.inquote⟩) args cs

/-- `unquoted`. The second attempt is balanced (`scan_snd`), so it is the last. -/
def unquoted (s : String) : List String :=
  match scan none [] s.toList.reverse with
  | (args, false) => args.map String.ofList
  | (_, true) => (scan none [] (s.toList ++ ['\'']).reverse).1.map String.ofList

/-- Whether `quoted` puts the word between quotes. -/
def needsQuote (arg : List Char) : Bool := arg.any (fun c => isBlank c || c = '\'') || arg.isEmpty

/-- The characters of a word between its quotes. -/
def doubled (arg : List Char) : List Char :=
  arg.flatMap fun c => if c = '\'' then ['\'', '\''] else [c]

/-- One word in the result of `quoted`. -/
def quotedArg (arg : List Char) : List Char :=
  if needsQuote arg then '\'' :: doubled arg ++ ['\''] else arg

/-- The characters of `quoted`. -/
def quotedChars : List (List Char) → List Char
  | [] => []
  | [arg] => quotedArg arg
  | arg :: argv => quotedArg arg ++ ' ' :: quotedChars argv

/-- `quoted` (`quotedc` without a further class of characters). -/
def quoted (argv : List String) : String :=
  String.ofList (quotedChars (argv.map String.toList))

/-! ## The steps of the scan -/

section Scan

variable {w : Word} {args : List (List Char)} {c : Char} {cs : List Char}

@[simp] theorem scan_nil : scan none args [] = (args, false) := rfl

@[simp] theorem scan_word_nil : scan (some w) args [] = (w.text :: args, w.inquote) := by
  simp [scan]

theorem scan_blank (hc : isBlank c = true) : scan none args (c :: cs) = scan none args cs := by
  rw [scan, if_pos hc]

theorem scan_begin (hc : isBlank c = false) (hq : c ≠ '\'') :
    scan none args (c :: cs) = scan (some ⟨[c], [], false⟩) args cs := by
  rw [scan, hc, if_neg Bool.false_ne_true, if_neg hq]

theorem scan_begin_quote :
    scan none args ('\'' :: cs) = scan (some ⟨[], [], true⟩) args cs := rfl

/-- One step inside a word. -/
theorem scan_word_cons : scan (some w) args (c :: cs) =
    if isBlank c && !w.inquote then scan none (w.text :: args) cs
    else if c = '\'' then
      if w.inquote then
        match cs with
        | '\'' :: cs' => scan (some ⟨['\''], w.text, true⟩) args cs'
        | cs => scan (some ⟨[], w.text, false⟩) args cs
      else scan (some ⟨[], w.text, true⟩) args cs
    else scan (some ⟨c :: w.seg, w.word, w.inquote⟩) args cs := by
  conv_lhs => rw [scan.eq_def]

theorem scan_end (hc : isBlank c = true) (hq : w.inquote = false) :
    scan (some w) args (c :: cs) = scan none (w.text :: args) cs := by
  rw [scan_word_cons, hc, hq]
  rfl

theorem scan_char (hc : isBlank c = false ∨ w.inquote = true) (hq : c ≠ '\'') :
    scan (some w) args (c :: cs) = scan (some ⟨c :: w.seg, w.word, w.inquote⟩) args cs := by
  have hsep : (isBlank c && !w.inquote) = false := by
    rcases hc with hc | hc <;> simp [hc]
  rw [scan_word_cons, hsep, if_neg Bool.false_ne_true, if_neg hq]

theorem scan_open (hq : w.inquote = false) :
    scan (some w) args ('\'' :: cs) = scan (some ⟨[], w.text, true⟩) args cs := by
  rw [scan_word_cons, hq]
  rfl

theorem scan_doubled (hq : w.inquote = true) :
    scan (some w) args ('\'' :: '\'' :: cs) = scan (some ⟨['\''], w.text, true⟩) args cs := by
  rw [scan_word_cons, hq]
  rfl

theorem scan_close (hq : w.inquote = true) (hcs : ∀ cs', cs ≠ '\'' :: cs') :
    scan (some w) args ('\'' :: cs) = scan (some ⟨[], w.text, false⟩) args cs := by
  rw [scan_word_cons, hq]
  simp only [Bool.not_true, Bool.and_false, Bool.false_eq_true, if_false, if_true]

end Scan

/-! ## Quotes balance -/

/-- Whether the number of quotes among the characters is odd. -/
def oddQuotes : List Char → Bool
  | [] => false
  | c :: cs => if c = '\'' then !oddQuotes cs else oddQuotes cs

/-- Whether a quote is open. -/
def quoteOpen : Option Word → Bool
  | none => false
  | some w => w.inquote

theorem ne_quote_of_isBlank {c : Char} (h : isBlank c = true) : c ≠ '\'' := by
  rintro rfl
  cases h

/-- A quote is open at the end exactly if the number of quotes is odd. -/
theorem scan_snd (w : Option Word) (args : List (List Char)) (cs : List Char) :
    (scan w args cs).2 = (quoteOpen w ^^ oddQuotes cs) := by
  induction w, args, cs using scan.induct with
  | case1 args => rfl
  | case2 args w => simp [quoteOpen, oddQuotes]
  | case3 args c cs hb ih =>
    rw [scan_blank hb, ih, oddQuotes, if_neg (ne_quote_of_isBlank hb)]
  | case4 args cs hb ih =>
    rw [scan_begin_quote, ih]
    simp [quoteOpen, oddQuotes]
  | case5 args c cs hb hc ih =>
    rw [scan_begin (Bool.eq_false_iff.mpr hb) hc, ih, oddQuotes, if_neg hc]
    rfl
  | case6 w args c cs hb ih =>
    obtain ⟨hb, hq⟩ := Bool.and_eq_true_iff.mp hb
    have hq : w.inquote = false := by simpa using hq
    rw [scan_end hb hq, ih, oddQuotes, if_neg (ne_quote_of_isBlank hb)]
    simp [quoteOpen, hq]
  | case7 w args hq cs hb ih =>
    rw [scan_doubled hq, ih]
    simp [quoteOpen, oddQuotes, hq]
  | case8 w args hq cs hcs hb ih =>
    rw [scan_close hq hcs, ih]
    simp [quoteOpen, oddQuotes, hq]
  | case9 w args cs hq hb ih =>
    have hq : w.inquote = false := by simpa using hq
    rw [scan_open hq, ih]
    simp [quoteOpen, oddQuotes, hq]
  | case10 w args c cs hb hc ih =>
    have hb : isBlank c = false ∨ w.inquote = true := by
      cases hbl : isBlank c
      · exact Or.inl rfl
      · exact Or.inr (by simpa [hbl] using hb)
    rw [scan_char hb hc, ih, oddQuotes, if_neg hc]
    rfl

/-- With one more quote at its end, a string with an open quote is balanced. -/
theorem scan_retry {cs : List Char} (h : (scan none [] cs.reverse).2 = true) :
    (scan none [] (cs ++ ['\'']).reverse).2 = false := by
  rw [List.reverse_append, List.reverse_singleton, List.singleton_append]
  rw [scan_snd] at h ⊢
  simp only [quoteOpen, Bool.false_xor] at h ⊢
  rw [oddQuotes, if_pos rfl, h]
  rfl

/-! ## The first word -/

/-- The characters stand in a word as they are. -/
def PlainChars (cs : List Char) : Prop := ∀ c ∈ cs, isBlank c = false ∧ c ≠ '\''

instance (cs : List Char) : Decidable (PlainChars cs) := List.decidableBAll _ cs

/-- Plain characters are read as they are, with or without an open quote. -/
theorem scan_plain {p : List Char} (hp : PlainChars p) (w : Word) (args : List (List Char))
    (rest : List Char) :
    scan (some w) args (p.reverse ++ rest) =
      scan (some ⟨p ++ w.seg, w.word, w.inquote⟩) args rest := by
  induction p using List.reverseRecOn generalizing w with
  | nil => rfl
  | append_singleton p c ih =>
    obtain ⟨hb, hq⟩ := hp c (by simp)
    rw [List.reverse_append, List.reverse_singleton, List.singleton_append, List.cons_append,
      scan_char (Or.inl hb) hq, ih fun c' hc' => hp c' (List.mem_append_left _ hc'),
      List.append_assoc, List.singleton_append]

/-- Plain characters at the left end of the string end its first word. -/
theorem scan_plain_end {p : List Char} (hp : PlainChars p) (w : Word) (args : List (List Char)) :
    scan (some w) args p.reverse = ((p ++ w.text) :: args, w.inquote) := by
  have h := scan_plain hp w args []
  rw [List.append_nil] at h
  rw [h, scan_word_nil]
  simp [Word.text]

/-- Plain characters at the front of a string are the front of its first word. -/
theorem scan_first {p : List Char} (hp : PlainChars p) (hne : p ≠ []) (w : Option Word)
    (args : List (List Char)) (cs : List Char) :
    ∃ tl args', (scan w args (cs ++ p.reverse)).1 = (p ++ tl) :: args' := by
  induction w, args, cs using scan.induct with
  | case1 args =>
    -- the last plain character begins the word
    obtain ⟨q, c, rfl⟩ := (List.eq_nil_or_concat' p).resolve_left hne
    obtain ⟨hb, hq⟩ := hp c (by simp)
    rw [List.nil_append, List.reverse_append, List.reverse_singleton, List.singleton_append,
      scan_begin hb hq, scan_plain_end fun c' hc' => hp c' (List.mem_append_left _ hc')]
    exact ⟨[], args, by simp [Word.text]⟩
  | case2 args w =>
    rw [List.nil_append, scan_plain_end hp]
    exact ⟨_, _, rfl⟩
  | case3 args c cs hb ih =>
    rw [List.cons_append, scan_blank hb]
    exact ih
  | case4 args cs hb ih =>
    rw [List.cons_append, scan_begin_quote]
    exact ih
  | case5 args c cs hb hc ih =>
    rw [List.cons_append, scan_begin (Bool.eq_false_iff.mpr hb) hc]
    exact ih
  | case6 w args c cs hb ih =>
    obtain ⟨hb, hq⟩ := Bool.and_eq_true_iff.mp hb
    rw [List.cons_append, scan_end hb (by simpa using hq)]
    exact ih
  | case7 w args hq cs hb ih =>
    rw [List.cons_append, List.cons_append, scan_doubled hq]
    exact ih
  | case8 w args hq cs hcs hb ih =>
    rw [List.cons_append, scan_close hq]
    · exact ih
    · intro cs' h
      cases cs with
      | nil =>
        -- the character after the quote is a plain one
        have hm : '\'' ∈ p := by
          rw [← List.mem_reverse, ← List.nil_append p.reverse, h]
          exact List.mem_cons_self
        exact (hp _ hm).2 rfl
      | cons c cs =>
        obtain rfl := (List.cons.inj h).1
        exact hcs cs rfl
  | case9 w args cs hq hb ih =>
    rw [List.cons_append, scan_open (by simpa using hq)]
    exact ih
  | case10 w args c cs hb hc ih =>
    have hb : isBlank c = false ∨ w.inquote = true := by
      cases hbl : isBlank c
      · exact Or.inl rfl
      · exact Or.inr (by simpa [hbl] using hb)
    rw [List.cons_append, scan_char hb hc]
    exact ih

/-- `scan_first` for `unquoted`: whatever follows, quotes and blanks included. -/
theorem unquoted_first {p : List Char} {s : String} (hp : PlainChars p) (hne : p ≠ [])
    (hs : p <+: s.toList) : ∃ w ws, unquoted s = w :: ws ∧ p <+: w.toList := by
  obtain ⟨t, ht⟩ := hs
  rw [unquoted, ← ht]
  split
  · rename_i args heq
    rw [List.reverse_append] at heq
    obtain ⟨tl, args', h⟩ := scan_first hp hne none [] t.reverse
    rw [heq] at h
    obtain rfl : args = _ := h
    exact ⟨_, _, rfl, tl, by rw [String.toList_ofList]⟩
  · rw [List.append_assoc, List.reverse_append]
    obtain ⟨tl, args', h⟩ := scan_first hp hne none [] (t ++ ['\'']).reverse
    rw [h]
    exact ⟨_, _, rfl, tl, by rw [String.toList_ofList]⟩

/-! ## `unquoted` undoes `quoted` -/

section Quoted

variable {args : List (List Char)} {rest : List Char}

/-- What may stand to the left of a word: nothing, or a blank. -/
def Separated (rest : List Char) : Prop := rest = [] ∨ ∃ cs, rest = ' ' :: cs

/-- A word whose quotes are closed ends at a separator. -/
theorem scan_separated {w : Word} (hq : w.inquote = false) (hrest : Separated rest) :
    scan (some w) args rest = scan none (w.text :: args) rest := by
  rcases hrest with rfl | ⟨cs, rfl⟩
  · rw [scan_word_nil, hq, scan_nil]
  · rw [scan_end rfl hq, scan_blank rfl]

/-- Between quotes, doubled quotes are read as single ones and blanks as they are. -/
theorem scan_quotedChars (hrest : Separated rest) (arg seg word : List Char) :
    scan (some ⟨seg, word, true⟩) args ((doubled arg).reverse ++ '\'' :: rest) =
      scan none ((arg ++ seg ++ word) :: args) rest := by
  induction arg using List.reverseRecOn generalizing seg word with
  | nil =>
    have hne : ∀ cs, rest ≠ '\'' :: cs := by
      rintro cs rfl
      rcases hrest with h | ⟨_, h⟩ <;> cases h
    exact (scan_close rfl hne).trans (scan_separated rfl hrest)
  | append_singleton arg c ih =>
    rw [doubled, List.flatMap_append, List.flatMap_singleton, List.reverse_append,
      List.append_assoc, ← doubled]
    by_cases hc : c = '\''
    · subst hc
      rw [if_pos rfl]
      refine (scan_doubled rfl).trans ((ih _ _).trans ?_)
      rw [Word.text, List.append_assoc (arg ++ _)]
    · rw [if_neg hc]
      refine (scan_char (Or.inr rfl) hc).trans ((ih _ _).trans ?_)
      rw [List.append_assoc arg [c], List.singleton_append]

theorem needsQuote_eq_false {arg : List Char} : needsQuote arg = false ↔
    arg ≠ [] ∧ PlainChars arg := by
  simp only [needsQuote, Bool.or_eq_false_iff, List.isEmpty_eq_false_iff, List.any_eq_false,
    Bool.or_eq_true, decide_eq_true_eq, not_or, Bool.not_eq_true]
  exact and_comm

/-- A word between quotes is read back. -/
theorem scan_enquoted (hrest : Separated rest) (arg : List Char) :
    scan none args (('\'' :: doubled arg ++ ['\'']).reverse ++ rest) =
      scan none (arg :: args) rest := by
  rw [List.reverse_append, List.reverse_singleton, List.singleton_append, List.cons_append,
    scan_begin_quote, List.reverse_cons, List.append_assoc, List.singleton_append,
    scan_quotedChars hrest]
  simp

/-- A word of plain characters is read back. -/
theorem scan_plainArg (hrest : Separated rest) {arg : List Char} (hne : arg ≠ [])
    (hcs : PlainChars arg) :
    scan none args (arg.reverse ++ rest) = scan none (arg :: args) rest := by
  -- the last character begins the word
  obtain ⟨cs, c, rfl⟩ := (List.eq_nil_or_concat' arg).resolve_left hne
  obtain ⟨hb, hq⟩ := hcs c (by simp)
  rw [List.reverse_append, List.reverse_singleton, List.singleton_append, List.cons_append,
    scan_begin hb hq, scan_plain fun c' hc' => hcs c' (List.mem_append_left _ hc')]
  rw [scan_separated rfl hrest, Word.text, List.append_nil]

/-- One word of `quoted` is read back. -/
theorem scan_quotedArg (hrest : Separated rest) (arg : List Char) :
    scan none args ((quotedArg arg).reverse ++ rest) = scan none (arg :: args) rest := by
  rw [quotedArg]
  split
  · exact scan_enquoted hrest arg
  · rename_i hn
    obtain ⟨hne, hcs⟩ := needsQuote_eq_false.mp (Bool.eq_false_iff.mpr hn)
    exact scan_plainArg hrest hne hcs

/-- All words of `quoted` are read back. -/
theorem scan_quoted (hrest : Separated rest) (argv : List (List Char)) :
    scan none args ((quotedChars argv).reverse ++ rest) = scan none (argv ++ args) rest := by
  induction argv generalizing args rest with
  | nil => rfl
  | cons arg argv ih =>
    cases argv with
    | nil => exact scan_quotedArg hrest arg
    | cons arg' argv =>
      rw [quotedChars, List.reverse_append, List.reverse_cons, List.append_assoc,
        List.append_assoc, List.singleton_append, ih (Or.inr ⟨_, rfl⟩), scan_blank rfl,
        scan_quotedArg hrest]
      · rfl
      · rintro ⟨⟩

end Quoted

/-- `unquoted` undoes `quoted`. -/
theorem unquoted_quoted (argv : List String) : unquoted (quoted argv) = argv := by
  have h := @scan_quoted [] [] (Or.inl rfl) (argv.map String.toList)
  rw [List.append_nil, List.append_nil, scan_nil] at h
  rw [unquoted, quoted, String.toList_ofList, h]
  simp [Function.comp_def]

/-- A word that `quoted` leaves as it is. -/
def Plain (w : String) : Prop := needsQuote w.toList = false

instance (w : String) : Decidable (Plain w) := inferInstanceAs (Decidable (_ = _))

theorem quotedArg_of_plain {w : String} (h : Plain w) : quotedArg w.toList = w.toList := by
  rw [quotedArg, h, if_neg Bool.false_ne_true]

/-- A plain word and a blank in front of a line of words. -/
theorem quoted_cons_of_plain {w a : String} {argv : List String} (h : Plain w) :
    quoted (w :: a :: argv) = w ++ " " ++ quoted (a :: argv) := by
  refine String.toList_inj.mp ?_
  simp only [quoted, List.map_cons, quotedChars, String.toList_ofList, String.toList_append,
    quotedArg_of_plain h]
  simp

theorem quoted_singleton_of_plain {w : String} (h : Plain w) : quoted [w] = w := by
  rw [quoted, List.map_singleton, quotedChars, quotedArg_of_plain h, String.ofList_toList]

/-! ## Texts that C reads -/

/-- What C sees of a text: it ends at the first NUL. -/
def cstring (s : String) : String := String.ofList (s.toList.takeWhile (· ≠ '\x00'))

/-- Whether the format `%q` puts the word between quotes: `needsQuote`, and all characters up
to the blank. -/
def needsFormat (arg : List Char) : Bool := arg.any (fun c => c ≤ ' ' || c = '\'') || arg.isEmpty

/-- What `sprint` makes of a word by `%q`. -/
def sprintq (s : String) : String :=
  let arg := (cstring s).toList
  String.ofList (if needsFormat arg then '\'' :: doubled arg ++ ['\''] else arg)

theorem cstring_eq_self {s : String} (h : '\x00' ∉ s.toList) : cstring s = s := by
  rw [cstring, List.takeWhile_eq_self_iff.mpr, String.ofList_toList]
  intro c hc
  have hne : c ≠ '\x00' := fun heq => h (heq ▸ hc)
  simpa using hne

/-- C sees the whole text only if there is no NUL in it. -/
theorem cstring_eq_self_iff {s : String} : cstring s = s ↔ '\x00' ∉ s.toList := by
  refine ⟨?_, cstring_eq_self⟩
  intro h hm
  rw [← h, cstring, String.toList_ofList] at hm
  simpa using List.mem_takeWhile_imp hm

/-- What C sees has no NUL in it. -/
@[simp] theorem cstring_cstring (s : String) : cstring (cstring s) = cstring s := by
  refine cstring_eq_self ?_
  intro hm
  rw [cstring, String.toList_ofList] at hm
  simpa using List.mem_takeWhile_imp hm

theorem nul_notMem_cstring (s : String) : '\x00' ∉ (cstring s).toList :=
  cstring_eq_self_iff.mp (cstring_cstring s)

theorem cstring_append {s : String} (h : '\x00' ∉ s.toList) (t : String) :
    cstring (s ++ t) = s ++ cstring t := by
  have hs : ∀ c ∈ s.toList, decide (c ≠ '\x00') = true := by
    intro c hc
    have hne : c ≠ '\x00' := fun heq => h (heq ▸ hc)
    simpa using hne
  rw [cstring, String.toList_append, List.takeWhile_append_of_pos hs, String.ofList_append,
    String.ofList_toList, cstring]

/-- Of what is appended to a text, C sees no more than Limbo does. -/
theorem mem_cstring_append {s t : String} {c : Char} (h : c ∈ (cstring (s ++ t)).toList) :
    c ∈ (cstring s).toList ∨ c ∈ t.toList := by
  rw [cstring, String.toList_ofList, String.toList_append, List.takeWhile_append] at h
  split at h
  · rename_i hall
    have heq : s.toList.takeWhile (fun c => decide (c ≠ '\x00')) = s.toList :=
      (List.takeWhile_prefix _).eq_of_length hall
    rw [List.mem_append] at h
    refine h.imp ?_ fun hc => (List.takeWhile_prefix _).subset hc
    intro hc
    rw [cstring, String.toList_ofList]
    rwa [← heq] at hc
  · exact Or.inl (by rwa [cstring, String.toList_ofList])

theorem needsFormat_eq_false {arg : List Char} (h : needsFormat arg = false) :
    arg ≠ [] ∧ PlainChars arg := by
  simp only [needsFormat, Bool.or_eq_false_iff, List.isEmpty_eq_false_iff, List.any_eq_false,
    Bool.or_eq_true, decide_eq_true_eq, not_or] at h
  refine ⟨h.2, ?_⟩
  intro c hc
  obtain ⟨hctl, hq⟩ := h.1 c hc
  refine ⟨?_, hq⟩
  rw [Bool.eq_false_iff]
  intro hb
  simp only [isBlank, Bool.or_eq_true, decide_eq_true_eq] at hb
  rcases hb with (rfl | rfl) | rfl <;> exact hctl (by decide)

theorem scan_sprintq {args : List (List Char)} {rest : List Char} (hrest : Separated rest)
    (s : String) : scan none args ((sprintq s).toList.reverse ++ rest) =
      scan none ((cstring s).toList :: args) rest := by
  rw [sprintq, String.toList_ofList]
  split
  · exact scan_enquoted hrest _
  · rename_i hn
    obtain ⟨hne, hcs⟩ := needsFormat_eq_false (Bool.eq_false_iff.mpr hn)
    exact scan_plainArg hrest hne hcs

/-- A word that a format puts into a line of words is read back as far as C sees it. -/
theorem unquoted_sprintq {p : String} (hp : Plain p) (s : String) (argv : List String) :
    unquoted (p ++ " " ++ sprintq s ++ " " ++ quoted argv) = p :: cstring s :: argv := by
  have hchars : (p ++ " " ++ sprintq s ++ " " ++ quoted argv).toList.reverse =
      (quotedChars (argv.map String.toList)).reverse ++
        (' ' :: ((sprintq s).toList.reverse ++ (' ' :: ((quotedArg p.toList).reverse ++ [])))) := by
    simp only [String.toList_append, quoted, String.toList_ofList, quotedArg_of_plain hp]
    simp
  have hscan := @scan_quoted []
    (' ' :: ((sprintq s).toList.reverse ++ (' ' :: ((quotedArg p.toList).reverse ++ []))))
    (Or.inr ⟨_, rfl⟩) (argv.map String.toList)
  rw [scan_blank rfl, scan_sprintq (Or.inr ⟨_, rfl⟩), scan_blank rfl,
    scan_quotedArg (Or.inl rfl), scan_nil, ← hchars] at hscan
  rw [unquoted, hscan]
  simp [Function.comp_def]

/-! ## Numbers -/

/-- The nearest number in the range of `int`. -/
def saturate (n : Int) : Int := max (-2 ^ 31) (min n (2 ^ 31 - 1))

/-- White space in front of a number. -/
def isSpace (c : Char) : Bool := isBlank c || c = '\x0b' || c = '\x0c' || c = '\r'

/-- The number that the digits at the front of the list denote. -/
def digits (cs : List Char) : Int := Nat.ofDigitChars 10 (cs.takeWhile Char.isDigit) 0

/-- `int s`: white space, a sign and digits, as `strtol` reads them where a `long` has 32 bits. -/
def int (s : String) : Int :=
  match s.toList.dropWhile isSpace with
  | '-' :: cs => saturate (-digits cs)
  | '+' :: cs => saturate (digits cs)
  | cs => saturate (digits cs)

theorem isint_saturate (n : Int) : Isint (saturate n) := by
  unfold Isint saturate
  omega

theorem saturate_of_isint {n : Int} (h : Isint n) : saturate n = n := by
  unfold Isint at h
  unfold saturate
  omega

theorem isint_int (s : String) : Isint (int s) := by
  unfold int
  split <;> exact isint_saturate _

theorem digits_repr (n : Nat) : digits n.repr.toList = n := by
  have hall : n.repr.toList.takeWhile Char.isDigit = n.repr.toList := by
    rw [List.takeWhile_eq_self_iff, Nat.toList_repr]
    exact fun c hc => Nat.isDigit_of_mem_toDigits (by decide) (by decide) hc
  rw [digits, hall, Nat.toList_repr, Nat.ofDigitChars_ten_toDigits]

/-- A string that begins with a digit is read from its first character on. -/
theorem int_of_isDigit {s : String} {c : Char} {cs : List Char} (hs : s.toList = c :: cs)
    (hc : c.isDigit = true) : int s = saturate (digits s.toList) := by
  have hsp : isSpace c = false := by
    rw [Bool.eq_false_iff]
    intro h
    simp only [isSpace, isBlank, Bool.or_eq_true, decide_eq_true_eq] at h
    rcases h with ((((rfl | rfl) | rfl) | rfl) | rfl) | rfl <;> cases hc
  rw [int, hs, List.dropWhile_cons_of_neg (by simp [hsp])]
  split
  · rename_i h
    obtain rfl := (List.cons.inj h).1
    cases hc
  · rename_i h
    obtain rfl := (List.cons.inj h).1
    cases hc
  · rfl

/-- `int` reads back the decimal notation of a number in its range. -/
theorem int_toString {n : Int} (h : Isint n) : int (toString n) = n := by
  rw [Int.toString_eq_repr, Int.repr_eq_if]
  split
  · rename_i hn
    have hd := digits_repr n.toNat
    rw [Int.toNat_of_nonneg hn] at hd
    obtain ⟨c, cs, hcs⟩ := List.exists_cons_of_ne_nil (@Nat.toDigits_ne_nil n.toNat 10)
    have hc : c.isDigit = true := by
      refine Nat.isDigit_of_mem_toDigits (b := 10) (n := n.toNat) (by decide) (by decide) ?_
      rw [hcs]
      exact List.mem_cons_self
    rw [int_of_isDigit (Nat.toList_repr.trans hcs) hc, hd, saturate_of_isint h]
  · rename_i hn
    have hd := digits_repr (-n).toNat
    rw [Int.toNat_of_nonneg (by omega)] at hd
    simp only [int, String.toList_append]
    change saturate (-digits (-n).toNat.repr.toList) = n
    rw [hd, Int.neg_neg, saturate_of_isint h]

/-- The characters of the decimal notation of a number. -/
theorem mem_toString {n : Int} {c : Char} (h : c ∈ (toString n).toList) :
    c.isDigit = true ∨ c = '-' := by
  have hrepr : ∀ m : Nat, c ∈ m.repr.toList → c.isDigit = true := by
    intro m hc
    rw [Nat.toList_repr] at hc
    exact Nat.isDigit_of_mem_toDigits (by decide) (by decide) hc
  rw [Int.toString_eq_repr, Int.repr_eq_if] at h
  split at h
  · exact Or.inl (hrepr _ h)
  · rw [String.toList_append] at h
    exact (List.mem_append.mp h).symm.imp (hrepr _) List.mem_singleton.mp

theorem toString_natCast (n : Nat) : toString (n : Int) = toString n := by
  rw [Int.toString_eq_repr, Int.repr_eq_if, if_pos (Int.natCast_nonneg n), Int.toNat_natCast,
    ← Nat.toString_eq_repr]

/-- The decimal notation of a number is a plain word. -/
theorem plain_toString (n : Int) : Plain (toString n) := by
  have hne : ∀ m : Nat, m.repr.toList ≠ [] := by
    intro m
    rw [Nat.toList_repr]
    exact Nat.toDigits_ne_nil
  rw [Plain, needsQuote_eq_false]
  refine ⟨?_, ?_⟩
  · rw [Int.toString_eq_repr, Int.repr_eq_if]
    split
    · exact hne _
    · simp
  · intro c hc
    rcases mem_toString hc with hdigit | rfl
    · refine ⟨?_, ?_⟩
      · rw [Bool.eq_false_iff]
        intro h
        simp only [isBlank, Bool.or_eq_true, decide_eq_true_eq] at h
        rcases h with (rfl | rfl) | rfl <;> cases hdigit
      · rintro rfl
        cases hdigit
    · decide

/-- A C string. -/
theorem cstring_toString (n : Int) : cstring (toString n) = toString n := by
  refine cstring_eq_self fun hm => ?_
  rcases mem_toString hm with h | h <;> cases h

theorem cstring_append_of_eq {s t : String} (hs : cstring s = s) (ht : cstring t = t) :
    cstring (s ++ t) = s ++ t := by
  rw [cstring_append (cstring_eq_self_iff.mp hs), ht]

theorem cstring_sprintq (s : String) : cstring (sprintq s) = sprintq s := by
  have hnul := nul_notMem_cstring s
  refine cstring_eq_self fun hm => ?_
  rw [sprintq, String.toList_ofList] at hm
  split at hm
  · rw [List.mem_append, List.mem_cons, doubled, List.mem_flatMap] at hm
    rcases hm with (hm | ⟨c, hc, hm⟩) | hm
    · exact absurd hm (by decide)
    · split at hm
      · exact absurd hm (by decide)
      · rw [List.mem_singleton.mp hm] at hnul
        exact hnul hc
    · exact absurd hm (by decide)
  · exact hnul hm

end Aimsgui
