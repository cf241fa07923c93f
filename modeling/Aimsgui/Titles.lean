import Aimsgui.Lib.Run
import Aimsgui.Mainloop
import Aimsgui.Toolbar
import Mathlib.Data.List.Chain

/-!
# Window titles on their way to the toolbar

`tkclient` sends the title of a new window to the window manager behind the word
"clientname", `tabswin` passes the request on to its controller, and the toolbar takes the
message apart with `unquoted` and joins the words of the title again. Nobody on the way
quotes the title. `title_label_iff` says which titles come through: those that are words with
single spaces between them and have no NUL. A quote is lost because `unquoted` writes fewer quotes
than it reads (`scan_quotes`), a blank because words are joined by one space, and what stands
behind a NUL because the request is written with the format `%s`.
-/

namespace Aimsgui

namespace Tkclient

/-- The text of a word behind its opening quote; a doubled quote stands for one. -/
def qtext : List Char → List Char
  | '\'' :: '\'' :: cs => '\'' :: qtext cs
  | '\'' :: _ => []
  | c :: cs => c :: qtext cs
  | [] => []

/-- `qword` of `wmlib`, for the first word. -/
def qword (s : String) : String :=
  match s.toList.dropWhile (· = ' ') with
  | '\'' :: cs => String.ofList (qtext cs)
  | cs => String.ofList (cs.takeWhile (· ≠ ' '))

/-- The requests that `wmctl` handles itself, or does not pass on as they are. -/
def ownrequests : List String :=
  ["exit", "move", "size", "ok", "help", "rect", "haskbdfocus", "task"]

/-- `wmctl`: what is written to the window manager with `fprint("%s")`, if the request is passed
on. -/
def wmctl (req : String) : Option String :=
  if qword req ∈ ownrequests then none else some (cstring req)

/-- What `toplevel` sends for the title of the new window. -/
def toplevel (title : String) : Option String :=
  if title = "" then none else wmctl ("clientname " ++ title)

theorem toplevel_eq {title : String} (h : title ≠ "") :
    toplevel title = some ("clientname " ++ cstring title) := by
  have hlist : ("clientname " ++ title).toList = "clientname".toList ++ ' ' :: title.toList := by
    rw [String.toList_append]
    rfl
  have hword : qword ("clientname " ++ title) = "clientname" := by
    rw [qword, hlist]
    rfl
  rw [toplevel, if_neg h, wmctl, hword, if_neg (by decide), cstring_append (by decide)]

end Tkclient

/-! ## A word in front of a text -/

theorem oddQuotes_append (cs cs' : List Char) :
    oddQuotes (cs ++ cs') = (oddQuotes cs ^^ oddQuotes cs') := by
  induction cs with
  | nil => exact (Bool.false_xor _).symm
  | cons c cs ih =>
    rw [List.cons_append, oddQuotes, oddQuotes, ih]
    split_ifs
    · rw [Bool.not_xor]
    · rfl

theorem oddQuotes_plain {p : List Char} (hp : PlainChars p) : oddQuotes p.reverse = false := by
  induction p with
  | nil => rfl
  | cons c p ih =>
    have hc : oddQuotes [c] = false := if_neg (hp c List.mem_cons_self).2
    have htail := ih fun c' hc' => hp c' (List.mem_cons_of_mem _ hc')
    rw [List.reverse_cons, oddQuotes_append, htail, hc]
    rfl

/-- A blank to the left of a text with balanced quotes separates words. -/
theorem scan_append_blank {w : Option Word} {args : List (List Char)} {cs rest : List Char}
    (h : (scan w args cs).2 = false) :
    scan w args (cs ++ ' ' :: rest) = scan none (scan w args cs).1 rest := by
  induction w, args, cs using scan.induct with
  | case1 args => exact scan_blank rfl
  | case2 args w =>
    rw [scan_word_nil] at h ⊢
    rw [List.nil_append, scan_end rfl h]
  | case3 args c cs hb ih =>
    rw [scan_blank hb] at h ⊢
    rw [List.cons_append, scan_blank hb]
    exact ih h
  | case4 args cs hb ih =>
    rw [scan_begin_quote] at h ⊢
    exact ih h
  | case5 args c cs hb hc ih =>
    have hb := Bool.eq_false_iff.mpr hb
    rw [scan_begin hb hc] at h ⊢
    rw [List.cons_append, scan_begin hb hc]
    exact ih h
  | case6 w args c cs hb ih =>
    obtain ⟨hb, hq⟩ := Bool.and_eq_true_iff.mp hb
    have hq : w.inquote = false := by simpa using hq
    rw [scan_end hb hq] at h ⊢
    rw [List.cons_append, scan_end hb hq]
    exact ih h
  | case7 w args hq cs hb ih =>
    rw [scan_doubled hq] at h ⊢
    rw [List.cons_append, List.cons_append, scan_doubled hq]
    exact ih h
  | case8 w args hq cs hcs hb ih =>
    rw [scan_close hq hcs] at h ⊢
    rw [List.cons_append, scan_close hq]
    · exact ih h
    · -- what follows the quote is the same character, or the blank
      intro cs' heq
      cases cs with
      | nil => cases heq
      | cons c cs =>
        obtain rfl := (List.cons.inj heq).1
        exact hcs cs rfl
  | case9 w args cs hq hb ih =>
    have hq : w.inquote = false := by simpa using hq
    rw [scan_open hq] at h ⊢
    rw [List.cons_append, scan_open hq]
    exact ih h
  | case10 w args c cs hb hc ih =>
    have hb : isBlank c = false ∨ w.inquote = true := by
      cases hbl : isBlank c
      · exact Or.inl rfl
      · exact Or.inr (by simpa [hbl] using hb)
    rw [scan_char hb hc] at h ⊢
    rw [List.cons_append, scan_char hb hc]
    exact ih h

/-- A plain word and a blank in front of any text: the word comes first, whatever the quotes in
the text do. -/
theorem unquoted_cons {p : String} (hp : Plain p) (s : String) :
    unquoted (p ++ " " ++ s) = p :: unquoted s := by
  obtain ⟨-, hchars⟩ := needsQuote_eq_false.mp hp
  have hlist : (p ++ " " ++ s).toList = p.toList ++ ' ' :: s.toList := by
    rw [String.toList_append, String.toList_append, List.append_assoc]
    rfl
  have hword : ∀ args, scan none args p.toList.reverse = (p.toList :: args, false) := by
    intro args
    have hscan := @scan_quotedArg args [] (Or.inl rfl) p.toList
    rwa [quotedArg_of_plain hp, List.append_nil, scan_nil] at hscan
  -- a text with balanced quotes behind the word
  have hfront : ∀ cs, (scan none [] cs.reverse).2 = false →
      scan none [] (p.toList ++ ' ' :: cs).reverse =
        (p.toList :: (scan none [] cs.reverse).1, false) := by
    intro cs hcs
    rw [List.reverse_append, List.reverse_cons, List.append_assoc, List.singleton_append,
      scan_append_blank hcs, hword]
  have hodd : oddQuotes (p.toList ++ ' ' :: s.toList).reverse = oddQuotes s.toList.reverse := by
    have hblank : oddQuotes (' ' :: p.toList.reverse) = oddQuotes p.toList.reverse := rfl
    rw [List.reverse_append, List.reverse_cons, List.append_assoc, List.singleton_append,
      oddQuotes_append, hblank, oddQuotes_plain hchars, Bool.xor_false]
  rw [unquoted, unquoted, hlist]
  cases hopen : (scan none [] s.toList.reverse).2 with
  | false =>
    obtain ⟨args, hargs⟩ : ∃ args, scan none [] s.toList.reverse = (args, false) :=
      ⟨_, Prod.ext rfl hopen⟩
    rw [hfront _ hopen, hargs]
    simp
  | true =>
    obtain ⟨args, hargs⟩ : ∃ args, scan none [] s.toList.reverse = (args, true) :=
      ⟨_, Prod.ext rfl hopen⟩
    obtain ⟨args', hargs'⟩ : ∃ args', scan none [] (p.toList ++ ' ' :: s.toList).reverse =
        (args', true) := by
      refine ⟨_, Prod.ext rfl ?_⟩
      rw [scan_snd, hodd, ← scan_snd none [] s.toList.reverse, hopen]
    have hretry := scan_retry hopen
    have happend : p.toList ++ ' ' :: s.toList ++ ['\''] =
        p.toList ++ ' ' :: (s.toList ++ ['\'']) := by
      rw [List.append_assoc, List.cons_append]
    rw [hargs, hargs']
    simp only [happend]
    rw [hfront _ hretry]
    simp

/-! ## Quotes are lost -/

/-- How many quotes the words have. -/
def quotes (args : List (List Char)) : Nat := args.flatten.count '\''

theorem quotes_cons (arg : List Char) (args : List (List Char)) :
    quotes (arg :: args) = arg.count '\'' + quotes args := by
  rw [quotes, List.flatten_cons, List.count_append, quotes]

/-- How many quotes the word under way has. -/
def wordquotes : Option Word → Nat
  | none => 0
  | some w => w.text.count '\''

/-- Of a pair of quotes nothing is written, and of a doubled quote between quotes one. -/
theorem scan_quotes {w : Option Word} {args : List (List Char)} {cs : List Char}
    (h : (scan w args cs).2 = false) :
    2 * quotes (scan w args cs).1 + (if quoteOpen w then 1 else 0) ≤
      2 * (quotes args + wordquotes w) +
        (if quoteOpen w then cs.count '\'' else cs.count '\'' - 2) := by
  induction w, args, cs using scan.induct with
  | case1 args =>
    rw [scan_nil]
    exact Nat.le_refl _
  | case2 w args =>
    rw [scan_word_nil] at h ⊢
    have hq : quoteOpen (some w) = false := h
    simp only [hq, Bool.false_eq_true, if_false, quotes_cons, wordquotes, List.count_nil]
    omega
  | case3 args c cs hb ih =>
    rw [scan_blank hb] at h ⊢
    rw [List.count_cons_of_ne (ne_quote_of_isBlank hb)]
    exact ih h
  | case4 args cs hb ih =>
    rw [scan_begin_quote] at h ⊢
    have hopen := ih h
    simp only [quoteOpen, wordquotes, Word.text, List.append_nil, List.count_nil, if_true,
      Bool.false_eq_true, if_false, List.count_cons_self] at hopen ⊢
    omega
  | case5 args c cs hb hc ih =>
    have hb := Bool.eq_false_iff.mpr hb
    rw [scan_begin hb hc] at h ⊢
    have hclosed := ih h
    rw [List.count_cons_of_ne hc]
    simpa only [quoteOpen, wordquotes, Word.text, List.append_nil, List.count_singleton,
      beq_iff_eq, if_neg hc, Bool.false_eq_true, if_false] using hclosed
  | case6 w args c cs hb ih =>
    obtain ⟨hb, hq⟩ := Bool.and_eq_true_iff.mp hb
    have hq : w.inquote = false := by simpa using hq
    rw [scan_end hb hq] at h ⊢
    have hclosed := ih h
    rw [List.count_cons_of_ne (ne_quote_of_isBlank hb)]
    simp only [quoteOpen, hq, wordquotes, quotes_cons, Bool.false_eq_true, if_false] at hclosed ⊢
    omega
  | case7 w args hq cs hb ih =>
    rw [scan_doubled hq] at h ⊢
    have hopen := ih h
    have htext : (Word.text ⟨['\''], w.text, true⟩).count '\'' = w.text.count '\'' + 1 :=
      List.count_cons_self
    simp only [quoteOpen, hq, wordquotes, htext, if_true, List.count_cons_self] at hopen ⊢
    omega
  | case8 w args hq cs hcs hb ih =>
    rw [scan_close hq hcs] at h ⊢
    have hclosed := ih h
    have htext : Word.text ⟨[], w.text, false⟩ = w.text := rfl
    simp only [quoteOpen, hq, wordquotes, htext, if_true, Bool.false_eq_true, if_false,
      List.count_cons_self] at hclosed ⊢
    omega
  | case9 w args cs hq hb ih =>
    have hq : w.inquote = false := by simpa using hq
    rw [scan_open hq] at h ⊢
    have hopen := ih h
    have htext : Word.text ⟨[], w.text, true⟩ = w.text := rfl
    simp only [quoteOpen, hq, wordquotes, htext, if_true, Bool.false_eq_true, if_false,
      List.count_cons_self] at hopen ⊢
    omega
  | case10 w args c cs hb hc ih =>
    have hb : isBlank c = false ∨ w.inquote = true := by
      cases hbl : isBlank c
      · exact Or.inl rfl
      · exact Or.inr (by simpa [hbl] using hb)
    rw [scan_char hb hc] at h ⊢
    have hsame := ih h
    have htext : (Word.text ⟨c :: w.seg, w.word, w.inquote⟩).count '\'' = w.text.count '\'' :=
      List.count_cons_of_ne hc
    rw [List.count_cons_of_ne hc]
    simp only [quoteOpen, wordquotes, htext] at hsame ⊢
    exact hsame

/-- A text with quotes is taken apart into words with fewer quotes. -/
theorem quotes_unquoted {s : String} (h : '\'' ∈ s.toList) :
    quotes ((unquoted s).map String.toList) < s.toList.count '\'' := by
  have hpos := List.count_pos_iff.mpr h
  have hwords : ∀ args : List (List Char), (args.map String.ofList).map String.toList = args := by
    intro args
    simp [Function.comp_def]
  cases hopen : (scan none [] s.toList.reverse).2 with
  | false =>
    obtain ⟨args, hargs⟩ : ∃ args, scan none [] s.toList.reverse = (args, false) :=
      ⟨_, Prod.ext rfl hopen⟩
    have hle := scan_quotes hopen
    rw [hargs, List.count_reverse] at hle
    rw [unquoted, hargs]
    dsimp only
    rw [hwords]
    simp only [quoteOpen, wordquotes, quotes, List.flatten_nil, List.count_nil,
      Bool.false_eq_true, if_false] at hle ⊢
    omega
  | true =>
    obtain ⟨args, hargs⟩ : ∃ args, scan none [] s.toList.reverse = (args, true) :=
      ⟨_, Prod.ext rfl hopen⟩
    have hle := scan_quotes (scan_retry hopen)
    rw [List.count_reverse, List.count_append, List.count_singleton_self] at hle
    rw [unquoted, hargs]
    dsimp only
    rw [hwords]
    simp only [quoteOpen, wordquotes, quotes, List.flatten_nil, List.count_nil,
      Bool.false_eq_true, if_false] at hle ⊢
    omega

/-- A text without quotes is taken apart into plain words. -/
theorem scan_words {w : Option Word} {args : List (List Char)} {cs : List Char}
    (hcs : ∀ c ∈ cs, c ≠ '\'') (hargs : ∀ arg ∈ args, needsQuote arg = false)
    (hw : ∀ v ∈ w, v.inquote = false ∧ needsQuote v.text = false) :
    ∀ arg ∈ (scan w args cs).1, needsQuote arg = false := by
  induction w, args, cs using scan.induct with
  | case1 args => exact hargs
  | case2 w args =>
    rw [scan_word_nil]
    exact List.forall_mem_cons.mpr ⟨(hw w rfl).2, hargs⟩
  | case3 args c cs hb ih =>
    rw [scan_blank hb]
    exact ih (fun c' hc' => hcs c' (List.mem_cons_of_mem _ hc')) hargs hw
  | case4 args cs hb => exact absurd rfl (hcs _ List.mem_cons_self)
  | case5 args c cs hb hc ih =>
    have hb := Bool.eq_false_iff.mpr hb
    rw [scan_begin hb hc]
    refine ih (fun c' hc' => hcs c' (List.mem_cons_of_mem _ hc')) hargs ?_
    rintro v ⟨⟩
    refine ⟨rfl, needsQuote_eq_false.mpr ⟨List.cons_ne_nil _ _, ?_⟩⟩
    intro c' hc'
    rw [List.mem_singleton.mp hc']
    exact ⟨hb, hc⟩
  | case6 w args c cs hb ih =>
    obtain ⟨hb, hq⟩ := Bool.and_eq_true_iff.mp hb
    rw [scan_end hb (by simpa using hq)]
    refine ih (fun c' hc' => hcs c' (List.mem_cons_of_mem _ hc')) ?_ (by rintro v ⟨⟩)
    exact List.forall_mem_cons.mpr ⟨(hw w rfl).2, hargs⟩
  | case7 | case8 | case9 => exact absurd rfl (hcs _ List.mem_cons_self)
  | case10 w args c cs hb hc ih =>
    obtain ⟨hq, hplain⟩ := hw w rfl
    have hb : isBlank c = false := by
      cases hbl : isBlank c
      · rfl
      · exact absurd (by simp [hbl, hq]) hb
    rw [scan_char (Or.inl hb) hc]
    refine ih (fun c' hc' => hcs c' (List.mem_cons_of_mem _ hc')) hargs ?_
    rintro v ⟨⟩
    refine ⟨hq, needsQuote_eq_false.mpr ⟨List.cons_ne_nil _ _, ?_⟩⟩
    exact List.forall_mem_cons.mpr ⟨⟨hb, hc⟩, (needsQuote_eq_false.mp hplain).2⟩

/-- The words are made of the characters of the text. -/
theorem scan_forall {p : Char → Prop} {w : Option Word} {args : List (List Char)} {cs : List Char}
    (hcs : ∀ c ∈ cs, p c) (hargs : ∀ arg ∈ args, ∀ c ∈ arg, p c)
    (hw : ∀ v ∈ w, ∀ c ∈ v.text, p c) : ∀ arg ∈ (scan w args cs).1, ∀ c ∈ arg, p c := by
  induction w, args, cs using scan.induct with
  | case1 args => exact hargs
  | case2 w args =>
    rw [scan_word_nil]
    exact List.forall_mem_cons.mpr ⟨hw w rfl, hargs⟩
  | case3 args c cs hb ih =>
    rw [scan_blank hb]
    exact ih (List.forall_mem_cons.mp hcs).2 hargs hw
  | case4 args cs hb ih =>
    rw [scan_begin_quote]
    refine ih (List.forall_mem_cons.mp hcs).2 hargs ?_
    rintro v ⟨⟩ c hc
    exact absurd hc List.not_mem_nil
  | case5 args c cs hb hc ih =>
    rw [scan_begin (Bool.eq_false_iff.mpr hb) hc]
    refine ih (List.forall_mem_cons.mp hcs).2 hargs ?_
    rintro v ⟨⟩ c' hc'
    rw [List.mem_singleton.mp hc']
    exact (List.forall_mem_cons.mp hcs).1
  | case6 w args c cs hb ih =>
    obtain ⟨hb, hq⟩ := Bool.and_eq_true_iff.mp hb
    rw [scan_end hb (by simpa using hq)]
    refine ih (List.forall_mem_cons.mp hcs).2 ?_ (by rintro v ⟨⟩)
    exact List.forall_mem_cons.mpr ⟨hw w rfl, hargs⟩
  | case7 w args hq cs hb ih =>
    rw [scan_doubled hq]
    obtain ⟨hquote, hcs⟩ := List.forall_mem_cons.mp hcs
    refine ih (List.forall_mem_cons.mp hcs).2 hargs ?_
    rintro v ⟨⟩
    exact List.forall_mem_cons.mpr ⟨hquote, hw w rfl⟩
  | case8 w args hq cs hcs' hb ih =>
    rw [scan_close hq hcs']
    refine ih (List.forall_mem_cons.mp hcs).2 hargs ?_
    rintro v ⟨⟩
    exact hw w rfl
  | case9 w args cs hq hb ih =>
    rw [scan_open (by simpa using hq)]
    refine ih (List.forall_mem_cons.mp hcs).2 hargs ?_
    rintro v ⟨⟩
    exact hw w rfl
  | case10 w args c cs hb hc ih =>
    have hb : isBlank c = false ∨ w.inquote = true := by
      cases hbl : isBlank c
      · exact Or.inl rfl
      · exact Or.inr (by simpa [hbl] using hb)
    rw [scan_char hb hc]
    obtain ⟨hchar, hcs⟩ := List.forall_mem_cons.mp hcs
    refine ih hcs hargs ?_
    rintro v ⟨⟩
    exact List.forall_mem_cons.mpr ⟨hchar, hw w rfl⟩

theorem unquoted_forall {p : Char → Prop} {s : String} (hquote : p '\'')
    (h : ∀ c ∈ s.toList, p c) : ∀ w ∈ unquoted s, ∀ c ∈ w.toList, p c := by
  have hscan : ∀ cs, (∀ c ∈ cs, p c) →
      ∀ w ∈ (scan none [] cs).1.map String.ofList, ∀ c ∈ w.toList, p c := by
    intro cs hcs w hw
    obtain ⟨arg, harg, rfl⟩ := List.mem_map.mp hw
    rw [String.toList_ofList]
    exact scan_forall hcs (fun _ hm => absurd hm List.not_mem_nil) (by rintro v ⟨⟩) arg harg
  rw [unquoted]
  split
  · rename_i args heq
    have hargs := hscan s.toList.reverse fun c hc => h c (List.mem_reverse.mp hc)
    rwa [heq] at hargs
  · refine hscan _ fun c hc => ?_
    rcases List.mem_append.mp (List.mem_reverse.mp hc) with hc | hc
    · exact h c hc
    · rwa [List.mem_singleton.mp hc]

theorem unquoted_words {s : String} (h : '\'' ∉ s.toList) : ∀ w ∈ unquoted s, Plain w := by
  have hcs : ∀ c ∈ s.toList.reverse, c ≠ '\'' := by
    rintro c hc rfl
    exact h (List.mem_reverse.mp hc)
  have hwords : ∀ arg ∈ (scan none [] s.toList.reverse).1, needsQuote arg = false :=
    scan_words hcs (fun _ hm => absurd hm List.not_mem_nil) (by rintro v ⟨⟩)
  have hodd : ∀ cs : List Char, (∀ c ∈ cs, c ≠ '\'') → oddQuotes cs = false := by
    intro cs
    induction cs with
    | nil => exact fun _ => rfl
    | cons c cs ih =>
      intro hcs
      rw [oddQuotes, if_neg (hcs c List.mem_cons_self)]
      exact ih fun c' hc' => hcs c' (List.mem_cons_of_mem _ hc')
  obtain ⟨args, hargs⟩ : ∃ args, scan none [] s.toList.reverse = (args, false) := by
    refine ⟨_, Prod.ext rfl ?_⟩
    rw [scan_snd, hodd _ hcs]
    rfl
  rw [hargs] at hwords
  intro w hw
  rw [unquoted, hargs] at hw
  obtain ⟨arg, harg, rfl⟩ := List.mem_map.mp hw
  rw [Plain, String.toList_ofList]
  exact hwords arg harg

/-! ## Words with single spaces between them -/

/-- The words with one space between them. -/
def spaced : List (List Char) → List Char
  | [] => []
  | [w] => w
  | w :: ws => w ++ ' ' :: spaced ws

theorem joinwords_toList (l : String) (ws : List String) :
    (Toolbar.joinwords l ws).toList = l.toList ++ spaced (ws.map String.toList) := by
  induction ws generalizing l with
  | nil => exact (List.append_nil _).symm
  | cons w ws ih =>
    cases ws with
    | nil => exact String.toList_append
    | cons w' ws =>
      have hspace : (" " : String).toList = [' '] := rfl
      rw [Toolbar.joinwords, ih, String.toList_append, String.toList_append, hspace]
      · simp [spaced]
      · rintro ⟨⟩

theorem spaced_forall {p : Char → Prop} {ws : List (List Char)} (hspace : p ' ')
    (h : ∀ w ∈ ws, ∀ c ∈ w, p c) : ∀ c ∈ spaced ws, p c := by
  induction ws with
  | nil => exact fun c hc => absurd hc List.not_mem_nil
  | cons w ws ih =>
    obtain ⟨hw, hws⟩ := List.forall_mem_cons.mp h
    cases ws with
    | nil => exact hw
    | cons w' ws =>
      rw [spaced]
      · exact List.forall_mem_append.mpr ⟨hw, List.forall_mem_cons.mpr ⟨hspace, ih hws⟩⟩
      · rintro ⟨⟩

theorem count_spaced (ws : List (List Char)) : (spaced ws).count '\'' = quotes ws := by
  induction ws with
  | nil => rfl
  | cons w ws ih =>
    rw [quotes_cons, ← ih]
    cases ws with
    | nil => rfl
    | cons w' ws =>
      have hspace : ' ' ≠ '\'' := by decide
      rw [spaced, List.count_append, List.count_cons_of_ne hspace]
      rintro ⟨⟩

/-- `quoted` leaves plain words as they are. -/
theorem quotedChars_plain {ws : List (List Char)} (h : ∀ w ∈ ws, needsQuote w = false) :
    quotedChars ws = spaced ws := by
  have harg : ∀ w ∈ ws, quotedArg w = w := by
    intro w hw
    rw [quotedArg, h w hw, if_neg Bool.false_ne_true]
  induction ws with
  | nil => rfl
  | cons w ws ih =>
    obtain ⟨hw, hws⟩ := List.forall_mem_cons.mp harg
    cases ws with
    | nil => exact hw
    | cons w' ws =>
      rw [quotedChars, spaced, hw, ih (fun v hv => h v (List.mem_cons_of_mem _ hv)) hws]
      · rintro ⟨⟩
      · rintro ⟨⟩

/-- Not two spaces side by side. -/
def Apart (a b : Char) : Prop := a ≠ ' ' ∨ b ≠ ' '

instance (a b : Char) : Decidable (Apart a b) := inferInstanceAs (Decidable (_ ∨ _))

/-- The title has no quote, no tab and no newline, and with a space before and after it no two
spaces side by side. -/
def Tidy (title : String) : Prop :=
  (∀ c ∈ title.toList, c ≠ '\'' ∧ c ≠ '\t' ∧ c ≠ '\n') ∧
    (' ' :: (title.toList ++ [' '])).IsChain Apart

instance (title : String) : Decidable (Tidy title) :=
  @instDecidableAnd _ _ (List.decidableBAll _ _) inferInstance

/-- A word without spaces does not bring two spaces together. -/
theorem isChain_word {a : Char} {w rest : List Char} (hw : ∀ c ∈ w, c ≠ ' ')
    (ha : a ≠ ' ' ∨ w ≠ []) (hrest : rest.IsChain Apart) : (a :: (w ++ rest)).IsChain Apart := by
  induction w generalizing a with
  | nil =>
    refine List.isChain_cons.mpr ⟨?_, hrest⟩
    exact fun _ _ => Or.inl (ha.resolve_right fun h => h rfl)
  | cons c w ih =>
    obtain ⟨hc, hw⟩ := List.forall_mem_cons.mp hw
    exact List.isChain_cons_cons.mpr ⟨Or.inr hc, ih hw (Or.inl hc)⟩

theorem plain_char {c : Char} (h : isBlank c = false) : c ≠ ' ' ∧ c ≠ '\t' ∧ c ≠ '\n' := by
  refine ⟨?_, ?_, ?_⟩ <;>
  · rintro rfl
    cases h

/-- Plain words with single spaces between them are tidy. -/
theorem tidy_spaced {ws : List (List Char)} (hne : ws ≠ []) (h : ∀ w ∈ ws, needsQuote w = false) :
    (∀ c ∈ spaced ws, c ≠ '\'' ∧ c ≠ '\t' ∧ c ≠ '\n') ∧
      (' ' :: (spaced ws ++ [' '])).IsChain Apart := by
  induction ws with
  | nil => exact absurd rfl hne
  | cons w ws ih =>
    obtain ⟨hw, hws⟩ := List.forall_mem_cons.mp h
    obtain ⟨hwne, hchars⟩ := needsQuote_eq_false.mp hw
    have hspace : ∀ c ∈ w, c ≠ ' ' := fun c hc => (plain_char (hchars c hc).1).1
    have hword : ∀ c ∈ w, c ≠ '\'' ∧ c ≠ '\t' ∧ c ≠ '\n' :=
      fun c hc => ⟨(hchars c hc).2, (plain_char (hchars c hc).1).2⟩
    cases ws with
    | nil => exact ⟨hword, isChain_word hspace (Or.inr hwne) (.singleton _)⟩
    | cons w' ws =>
      obtain ⟨hrest, hchain⟩ := ih (List.cons_ne_nil _ _) hws
      rw [spaced]
      · refine ⟨?_, ?_⟩
        · intro c hc
          rcases List.mem_append.mp hc with hc | hc
          · exact hword c hc
          · rcases List.mem_cons.mp hc with rfl | hc
            · decide
            · exact hrest c hc
        · rw [List.append_assoc, List.cons_append]
          exact isChain_word hspace (Or.inr hwne) hchain
      · rintro ⟨⟩

/-- A tidy text is words with single spaces between them. -/
theorem spaced_of_tidy {cs : List Char} (hcs : ∀ c ∈ cs, c ≠ '\'' ∧ c ≠ '\t' ∧ c ≠ '\n')
    (hchain : (' ' :: (cs ++ [' '])).IsChain Apart) :
    ∃ ws, ws ≠ [] ∧ (∀ w ∈ ws, needsQuote w = false) ∧ cs = spaced ws := by
  induction hlen : cs.length using Nat.strong_induction_on generalizing cs with
  | _ n ih =>
    -- the first word, and what follows it
    have hsplit : cs.takeWhile (· ≠ ' ') ++ cs.dropWhile (· ≠ ' ') = cs :=
      List.takeWhile_append_dropWhile
    have hne : cs.takeWhile (· ≠ ' ') ≠ [] := by
      cases cs with
      | nil => exact absurd rfl ((List.isChain_cons_cons.mp hchain).1.resolve_left (by simp))
      | cons c cs =>
        have hc : c ≠ ' ' := (List.isChain_cons_cons.mp hchain).1.resolve_left (by simp)
        rw [List.takeWhile_cons_of_pos (by simpa using hc)]
        exact List.cons_ne_nil _ _
    have hplain : needsQuote (cs.takeWhile (· ≠ ' ')) = false := by
      refine needsQuote_eq_false.mpr ⟨hne, ?_⟩
      intro c hc
      have hspace : c ≠ ' ' := by simpa using List.mem_takeWhile_imp hc
      obtain ⟨hquote, htab, hnl⟩ := hcs c ((List.takeWhile_prefix _).subset hc)
      refine ⟨?_, hquote⟩
      simp [isBlank, hspace, htab, hnl]
    cases hrest : cs.dropWhile (· ≠ ' ') with
    | nil =>
      rw [hrest, List.append_nil] at hsplit
      exact ⟨[cs.takeWhile (· ≠ ' ')], by simp, by simpa using hplain, hsplit.symm⟩
    | cons b rest =>
      rw [hrest] at hsplit
      have hb : b = ' ' := by
        have hhead := List.head?_dropWhile_not (fun c : Char => decide (c ≠ ' ')) cs
        rw [hrest] at hhead
        simpa using hhead
      subst hb
      have hlt : rest.length < n := by
        rw [← hlen, ← hsplit, List.length_append, List.length_cons]
        omega
      have hmem : ∀ c ∈ rest, c ∈ cs := by
        intro c hc
        rw [← hsplit]
        exact List.mem_append_right _ (List.mem_cons_of_mem _ hc)
      have hchain' : (' ' :: (rest ++ [' '])).IsChain Apart := by
        rw [← hsplit, List.append_assoc, ← List.cons_append] at hchain
        exact hchain.right_of_append
      obtain ⟨ws, hws, hwords, rfl⟩ := ih _ hlt (fun c hc => hcs c (hmem c hc)) hchain' rfl
      refine ⟨cs.takeWhile (· ≠ ' ') :: ws, List.cons_ne_nil _ _, ?_, ?_⟩
      · exact List.forall_mem_cons.mpr ⟨hplain, hwords⟩
      · rw [spaced]
        · exact hsplit.symm
        · exact hws

/-- The words that `unquoted` finds in a text, joined by single spaces, are the text just if it
is tidy. -/
theorem label_eq_iff (title : String) :
    unquoted title ≠ [] ∧ Toolbar.joinwords "" (unquoted title) = title ↔ Tidy title := by
  constructor
  · rintro ⟨hne, hlabel⟩
    have hlist := congrArg String.toList hlabel
    rw [joinwords_toList] at hlist
    have hquote : '\'' ∉ title.toList := by
      intro hquote
      have hlt := quotes_unquoted hquote
      have hcount := congrArg (List.count '\'') hlist
      rw [String.toList_empty, List.nil_append, count_spaced] at hcount
      omega
    have hwords : ∀ w ∈ (unquoted title).map String.toList, needsQuote w = false := by
      intro w hw
      obtain ⟨s, hs, rfl⟩ := List.mem_map.mp hw
      exact unquoted_words hquote s hs
    have htidy := tidy_spaced (by simpa using hne) hwords
    rw [String.toList_empty, List.nil_append] at hlist
    rwa [hlist] at htidy
  · rintro ⟨hchars, hchain⟩
    obtain ⟨ws, hne, hwords, heq⟩ := spaced_of_tidy hchars hchain
    have htitle : title = quoted (ws.map String.ofList) := by
      refine String.toList_inj.mp ?_
      rw [quoted, String.toList_ofList, List.map_map]
      simp only [Function.comp_def, String.toList_ofList, List.map_id']
      rw [quotedChars_plain hwords]
      exact heq
    have hunquoted : unquoted title = ws.map String.ofList := by rw [htitle, unquoted_quoted]
    refine ⟨by simpa [hunquoted] using hne, ?_⟩
    refine String.toList_inj.mp ?_
    rw [joinwords_toList, hunquoted, List.map_map]
    simp only [Function.comp_def, String.toList_ofList, List.map_id']
    exact heq.symm

/-- The label that is made of a title that has come as far as its first NUL. -/
theorem label_cstring_iff (title : String) :
    unquoted (cstring title) ≠ [] ∧ Toolbar.joinwords "" (unquoted (cstring title)) = title ↔
      Tidy title ∧ '\x00' ∉ title.toList := by
  constructor
  · rintro ⟨hne, hlabel⟩
    have hnul : '\x00' ∉ title.toList := by
      intro hm
      rw [← hlabel, joinwords_toList, String.toList_empty, List.nil_append] at hm
      refine spaced_forall (p := fun c => c ≠ '\x00') (by decide) ?_ _ hm rfl
      intro w hw
      obtain ⟨v, hv, rfl⟩ := List.mem_map.mp hw
      refine unquoted_forall (p := fun c => c ≠ '\x00') (by decide) ?_ v hv
      rintro c hc rfl
      exact nul_notMem_cstring title hc
    rw [cstring_eq_self hnul] at hne hlabel
    exact ⟨(label_eq_iff title).mp ⟨hne, hlabel⟩, hnul⟩
  · rintro ⟨htidy, hnul⟩
    rw [cstring_eq_self hnul]
    exact (label_eq_iff title).mpr htidy

/-- The decimal notation of a client's id is a plain word. -/
theorem plain_id (n : Nat) : Plain (toString n) := by
  have hint := plain_toString n
  rwa [toString_natCast] at hint

/-- A name of at least one word. -/
theorem handlerequest_clientname {id : String} {args : List String} (h : args ≠ []) :
    Toolbar.handlerequest id "clientname" args = .name id (Toolbar.joinwords "" args) := by
  cases args with
  | nil => exact absurd rfl h
  | cons arg args => rfl

/-- What the toolbar makes of a name that `tabswin` has forwarded. -/
theorem wmctl_clientname (id : Nat) (title : String) :
    Toolbar.wmctl ("request " ++ toString id ++ " " ++ ("clientname " ++ title)) =
      some (Toolbar.handlerequest (toString id) "clientname" (unquoted title)) := by
  have hrequest : Plain "request" := by decide
  have hname : Plain "clientname" := by decide
  have hmsg : "request " ++ toString id ++ " " ++ ("clientname " ++ title) =
      "request" ++ " " ++ (toString id ++ " " ++ ("clientname" ++ " " ++ title)) := by
    simp only [String.append_assoc]
    rfl
  rw [Toolbar.wmctl, hmsg, unquoted_cons hrequest, unquoted_cons (plain_id id),
    unquoted_cons hname]
  rfl

namespace Wm

variable {env : Env} {w : Wm} {c ctlr : Cid} {title : String}

/-- A manager with a controller and a client. -/
def exhibit : Wm where
  client := fun c => if c = 0 then { controller := true, controlstarted := true } else { id := c }
  screen := ⟨⟨0, 0⟩, ⟨196, 400⟩⟩
  controller := some 0
  allowcontrol := false

/-- For every title a client of `tabswin` gives to `toplevel`, and whatever characters are in it:
the request is passed on to the controller, and the label that reaches `client_name` there is the
title just if the title is tidy and has no NUL. -/
theorem title_label_iff (hctlr : w.controller = some ctlr) (hne : ctlr ≠ c)
    (hstarted : (w.client ctlr).controlstarted = true) (htitle : title ≠ "") :
    ∃ req msg, Tkclient.toplevel title = some req ∧
      (∀ ptr, w.handlerequest .tabswin env c req ptr = some (w.ctl ctlr msg, none)) ∧
      (Toolbar.wmctl msg = some (.name (toString (w.client c).id) title) ↔
        Tidy title ∧ '\x00' ∉ title.toList) := by
  refine ⟨_, "request " ++ toString (w.client c).id ++ " " ++ ("clientname " ++ cstring title),
    Tkclient.toplevel_eq htitle, ?_, ?_⟩
  · intro ptr
    have hname : Plain "clientname" := by decide
    have hreq : unquoted ("clientname " ++ cstring title) = "clientname" :: unquoted (cstring title) :=
      unquoted_cons hname (cstring title)
    have hhead : ("clientname " ++ cstring title).toList.head? ≠ some '!' := by
      have hc : ("clientname " ++ cstring title).toList.head? = some 'c' := by
        rw [String.toList_append]
        rfl
      rw [hc]
      decide
    have hmove : ¬ ("clientname" = "!move" ∨ "clientname" = "!size") := by decide
    have hforward : ¬ (ctlr = c ∨ (w.client ctlr).controlstarted = false) := by
      simp [hne, hstarted]
    rw [handlerequest_cons hreq, if_neg hmove, if_neg fun h : _ ∧ _ => hhead h.1]
    change some (w.otherRequest c ("clientname " ++ cstring title)) = _
    rw [otherRequest, hctlr]
    simp only [if_neg hforward]
  · rw [wmctl_clientname, ← label_cstring_iff, Option.some_inj]
    by_cases hwords : unquoted (cstring title) = []
    · rw [hwords]
      exact iff_of_false (by rintro ⟨⟩) fun h => h.1 rfl
    · rw [handlerequest_clientname hwords]
      constructor
      · intro h
        injection h with _ hlabel
        exact ⟨hwords, hlabel⟩
      · rintro ⟨-, hlabel⟩
        rw [hlabel]

/-- A title of two words. -/
theorem title_label_words :
    ∃ req msg, Tkclient.toplevel "two words" = some req ∧
      (∀ ptr, (exhibit.handlerequest .tabswin default 1 req ptr) =
        some (exhibit.ctl 0 msg, none)) ∧
      Toolbar.wmctl msg = some (.name "1" "two words") := by
  obtain ⟨req, msg, htop, hforward, hlabel⟩ :=
    @title_label_iff default exhibit 1 0 "two words" rfl (by decide) rfl (by decide)
  exact ⟨req, msg, htop, hforward, hlabel.mpr (by decide)⟩

end Wm

namespace Session

open Transition

/-- The title "it's" reaches the toolbar without its quote. -/
theorem title_loses_quote :
    ∃ s, Run (StepOf (step .tabswin default)) (start ⟨⟨0, 0⟩, ⟨196, 400⟩⟩)
        [.opened 0, .join 0, .request 0 "start control" [], .opened 1, .join 1,
          .request 1 "clientname it's" []] s ∧
      Tkclient.toplevel "it's" = some "clientname it's" ∧
      s.wm.out.getLast? = some (.ctl 0 "request 1 clientname it's") ∧
      Toolbar.wmctl "request 1 clientname it's" = some (.name "1" "its") :=
  Run.exists_of_exec (by decide +kernel)

end Session

end Aimsgui
