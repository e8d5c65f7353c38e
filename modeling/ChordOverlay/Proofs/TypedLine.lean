import ChordOverlay.Console.Line
import Mathlib.Data.List.TakeDrop
import Mathlib.Data.List.TakeWhile

/-!
# Lines of words

A typed line is read just when it holds two words or more. The name is the first of them, and the message is all that
stands from the second to the last, with the blanks inside as they are.
-/

namespace ChordOverlay

namespace Text

variable {text pre post : List Char} {c : Char}

/-! ## Words -/

/-- The words of a text: what stands between its blanks. -/
def words (text : List Char) : List (List Char) := (text.splitOnP isBlank).filter fun word => !word.isEmpty

/-- A word: it is not empty, and no part of it is blank. -/
def IsWord (word : List Char) : Prop := word ≠ [] ∧ ∀ c ∈ word, isBlank c = false

/-- A blank ends a word, and no word goes over it. -/
theorem words_append_blank (hc : isBlank c = true) (pre post : List Char) :
    words (pre ++ c :: post) = words pre ++ words post := by
  rw [words, List.splitOnP_append_cons pre post hc, List.filter_append]
  rfl

theorem words_nil : words [] = [] := by
  rw [words, List.splitOnP_nil]
  rfl

theorem words_of_word {word : List Char} (h : IsWord word) : words word = [word] := by
  rw [words, List.splitOnP_eq_singleton h.2, List.filter_cons_of_pos (by simp [h.1]), List.filter_nil]

theorem words_blanks_append (h : ∀ c ∈ pre, isBlank c = true) (text : List Char) : words (pre ++ text) = words text := by
  induction pre with
  | nil => rfl
  | cons c pre ih =>
      obtain ⟨hc, hpre⟩ := List.forall_mem_cons.mp h
      have hfront := words_append_blank hc [] (pre ++ text)
      rw [words_nil, List.nil_append, List.nil_append] at hfront
      rw [List.cons_append, hfront, ih hpre]

theorem words_of_blanks (h : ∀ c ∈ pre, isBlank c = true) : words pre = [] := by
  have hpre := words_blanks_append h []
  rwa [List.append_nil, words_nil] at hpre

theorem words_append_blanks (h : ∀ c ∈ post, isBlank c = true) (text : List Char) : words (text ++ post) = words text := by
  cases post with
  | nil => rw [List.append_nil]
  | cons c post =>
      obtain ⟨hc, hpost⟩ := List.forall_mem_cons.mp h
      rw [words_append_blank hc, words_of_blanks hpost, List.append_nil]

/-! ## Ends -/

/-- The first character is there and is no blank. -/
def Begins (text : List Char) : Prop := ∃ c rest, text = c :: rest ∧ isBlank c = false

/-- The last character is there and is no blank. -/
def Finishes (text : List Char) : Prop := ∃ front c, text = front ++ [c] ∧ isBlank c = false

theorem IsWord.begins {word : List Char} (h : IsWord word) (more : List Char) : Begins (word ++ more) := by
  obtain ⟨hsome, hclear⟩ := h
  cases word with
  | nil => exact absurd rfl hsome
  | cons c word => exact ⟨c, word ++ more, rfl, hclear c List.mem_cons_self⟩

theorem Finishes.append (h : Finishes text) (pre : List Char) : Finishes (pre ++ text) := by
  obtain ⟨front, c, rfl, hc⟩ := h
  exact ⟨pre ++ front, c, (List.append_assoc ..).symm, hc⟩

/-- A text that ends in no blank ends so behind whatever is cut off its front, if something is left. -/
theorem Finishes.of_append (h : Finishes (pre ++ text)) (hsome : text ≠ []) : Finishes text := by
  obtain ⟨front, c, hparts, hc⟩ := h
  rw [← List.dropLast_concat_getLast hsome, ← List.append_assoc] at hparts
  obtain ⟨-, hlast⟩ := List.append_inj' hparts rfl
  refine ⟨text.dropLast, c, ?_, hc⟩
  rw [← hlast, List.dropLast_concat_getLast hsome]

theorem Finishes.not_blanks (h : Finishes text) : ¬ ∀ c ∈ text, isBlank c = true := by
  obtain ⟨front, c, rfl, hc⟩ := h
  intro hall
  rw [hall c (List.mem_append_right front List.mem_cons_self)] at hc
  cases hc

theorem trimStart_of_begins (h : Begins text) : trimStart text = text := by
  obtain ⟨c, rest, rfl, hc⟩ := h
  rw [trimStart, List.dropWhile_cons_of_neg (by simp [hc])]

theorem trimEnd_of_finishes (h : Finishes text) : trimEnd text = text := by
  obtain ⟨front, c, rfl, hc⟩ := h
  rw [trimEnd, List.reverse_append, List.reverse_singleton, List.singleton_append,
    List.dropWhile_cons_of_neg (by simp [hc]), List.reverse_cons, List.reverse_reverse]

theorem trimStart_blanks_append (h : ∀ c ∈ pre, isBlank c = true) (text : List Char) :
    trimStart (pre ++ text) = trimStart text :=
  List.dropWhile_append_of_pos h

theorem trimEnd_append_blanks (h : ∀ c ∈ post, isBlank c = true) (text : List Char) :
    trimEnd (text ++ post) = trimEnd text := by
  rw [trimEnd, List.reverse_append, List.dropWhile_append_of_pos fun c hc => h c (List.mem_reverse.mp hc)]
  rfl

theorem trim_eq (hpre : ∀ c ∈ pre, isBlank c = true) (hpost : ∀ c ∈ post, isBlank c = true) (hbegins : Begins text)
    (hfinishes : Finishes text) : trim (pre ++ (text ++ post)) = text := by
  have hmore : Begins (text ++ post) := by
    obtain ⟨c, rest, rfl, hc⟩ := hbegins
    exact ⟨c, rest ++ post, rfl, hc⟩
  rw [trim, trimStart_blanks_append hpre, trimStart_of_begins hmore, trimEnd_append_blanks hpost,
    trimEnd_of_finishes hfinishes]

/-- The blanks in front of a text, and what begins behind them. -/
theorem exists_front (text : List Char) :
    ∃ pre rest, text = pre ++ rest ∧ (∀ c ∈ pre, isBlank c = true) ∧ (rest = [] ∨ Begins rest) := by
  refine ⟨text.takeWhile isBlank, text.dropWhile isBlank, List.takeWhile_append_dropWhile.symm,
    fun c hc => List.mem_takeWhile_imp hc, ?_⟩
  have hhead := List.head?_dropWhile_not isBlank text
  cases hrest : text.dropWhile isBlank with
  | nil => exact .inl rfl
  | cons c more =>
      rw [hrest] at hhead
      exact .inr ⟨c, more, rfl, hhead⟩

theorem exists_back (text : List Char) :
    ∃ rest post, text = rest ++ post ∧ (∀ c ∈ post, isBlank c = true) ∧ (rest = [] ∨ Finishes rest) := by
  obtain ⟨pre, rest, hparts, hpre, hrest⟩ := exists_front text.reverse
  refine ⟨rest.reverse, pre.reverse, ?_, fun c hc => hpre c (List.mem_reverse.mp hc), ?_⟩
  · rw [← List.reverse_append, ← hparts, List.reverse_reverse]
  · obtain rfl | ⟨c, more, rfl, hc⟩ := hrest
    · exact .inl rfl
    · exact .inr ⟨more.reverse, c, List.reverse_cons, hc⟩

/-- A text is all blanks, or there is something with blanks around it that neither begins nor ends in one. -/
theorem blanks_or_core (text : List Char) : (∀ c ∈ text, isBlank c = true) ∨
    ∃ pre core post, text = pre ++ (core ++ post) ∧ (∀ c ∈ pre, isBlank c = true) ∧ (∀ c ∈ post, isBlank c = true) ∧
      Begins core ∧ Finishes core := by
  obtain ⟨rest, post, rfl, hpost, rfl | hfinishes⟩ := exists_back text
  · exact .inl hpost
  obtain ⟨pre, core, rfl, hpre, rfl | hbegins⟩ := exists_front rest
  · rw [List.append_nil] at hfinishes
    exact absurd hpre hfinishes.not_blanks
  · obtain ⟨c, rest, hcore, hc⟩ := hbegins
    have hsome : core ≠ [] := hcore ▸ List.cons_ne_nil c rest
    exact .inr ⟨pre, core, post, List.append_assoc .., hpre, hpost, ⟨c, rest, hcore, hc⟩, hfinishes.of_append hsome⟩

/-- The first word of a text that begins with one. -/
theorem Begins.exists_word (h : Begins text) :
    ∃ word rest, text = word ++ rest ∧ IsWord word ∧ (rest = [] ∨ ∃ c more, rest = c :: more ∧ isBlank c = true) := by
  have hhead := List.head?_dropWhile_not (fun c => !isBlank c) text
  refine ⟨text.takeWhile fun c => !isBlank c, text.dropWhile fun c => !isBlank c, List.takeWhile_append_dropWhile.symm,
    ⟨?_, fun c hc => by simpa using List.mem_takeWhile_imp hc⟩, ?_⟩
  · obtain ⟨c, rest, rfl, hc⟩ := h
    rw [List.takeWhile_cons_of_pos (by simp [hc])]
    exact List.cons_ne_nil _ _
  · cases hrest : text.dropWhile fun c => !isBlank c with
    | nil => exact .inl rfl
    | cons c more =>
        rw [hrest] at hhead
        exact .inr ⟨c, more, rfl, by simpa using hhead⟩

end Text

namespace Console

open Text

variable {line name text before gap after rest : List Char}

/-! ## Lines -/

/-- A line that holds a name and a message, with blanks between them and maybe around them. -/
structure Cut (line before name gap text after : List Char) : Prop where
  whole : line = before ++ ((name ++ (gap ++ text)) ++ after)
  before : ∀ c ∈ before, isBlank c = true
  gap : gap ≠ [] ∧ ∀ c ∈ gap, isBlank c = true
  after : ∀ c ∈ after, isBlank c = true
  name : IsWord name
  begins : Begins text
  finishes : Finishes text

theorem span_word (hname : ∀ c ∈ name, isBlank c = false) (hrest : ∀ c ∈ rest.head?, isBlank c = true) :
    (name ++ rest).span (fun c => !isBlank c) = (name, rest) := by
  have hclear : ∀ c ∈ name, (!isBlank c) = true := fun c hc => by simp [hname c hc]
  rw [List.span_eq_takeWhile_dropWhile, List.takeWhile_append_of_pos hclear, List.dropWhile_append_of_pos hclear]
  cases rest with
  | nil => simp
  | cons c more => simp [hrest c rfl]

theorem read_of_word (htrim : trim line = name) (hname : ∀ c ∈ name, isBlank c = false) :
    Outgoing.read line = .error (.noMessage (String.ofList (trim line))) := by
  have hspan : (name ++ []).span (fun c => !isBlank c) = (name, []) := span_word hname nofun
  rw [List.append_nil] at hspan
  unfold Outgoing.read
  simp only [htrim, hspan]

theorem read_of_blank {c : Char} (htrim : trim line = name ++ c :: rest) (hname : ∀ c ∈ name, isBlank c = false)
    (hc : isBlank c = true) : Outgoing.read line = if (trimStart rest).isEmpty then .error .emptyMessage
      else .ok ⟨String.ofList name, .ofName (String.ofList name), String.ofList (trimStart rest)⟩ := by
  have hspan : (name ++ c :: rest).span (fun c => !isBlank c) = (name, c :: rest) :=
    span_word hname fun d hd => by cases hd; exact hc
  unfold Outgoing.read
  simp only [htrim, hspan]

namespace Cut

theorem words_eq (h : Cut line before name gap text after) : words line = name :: words text := by
  obtain ⟨g, gap', rfl⟩ := List.exists_cons_of_ne_nil h.gap.1
  obtain ⟨hg, hgap⟩ := List.forall_mem_cons.mp h.gap.2
  rw [h.whole, words_blanks_append h.before, words_append_blanks h.after, List.cons_append, words_append_blank hg,
    words_of_word h.name, words_blanks_append hgap, List.singleton_append]

theorem two_words (h : Cut line before name gap text after) : 2 ≤ (words line).length := by
  obtain ⟨word, rest, htext, hword, hrest⟩ := h.begins.exists_word
  have hsome : (words text).length ≠ 0 := by
    obtain rfl | ⟨c, more, rfl, hc⟩ := hrest
    · rw [htext, List.append_nil, words_of_word hword]
      exact Nat.one_ne_zero
    · rw [htext, words_append_blank hc, words_of_word hword]
      exact Nat.succ_ne_zero _
  rw [h.words_eq, List.length_cons]
  omega

theorem read_eq (h : Cut line before name gap text after) :
    Outgoing.read line = .ok ⟨String.ofList name, .ofName (String.ofList name), String.ofList text⟩ := by
  have htrim := trim_eq h.before h.after (h.name.begins (gap ++ text)) ((h.finishes.append gap).append name)
  rw [← h.whole] at htrim
  obtain ⟨g, gap', rfl⟩ := List.exists_cons_of_ne_nil h.gap.1
  obtain ⟨hg, hgap⟩ := List.forall_mem_cons.mp h.gap.2
  have htext : trimStart (gap' ++ text) = text := by
    rw [trimStart_blanks_append hgap, trimStart_of_begins h.begins]
  have hsome : text.isEmpty = false := by
    obtain ⟨c, rest, rfl, -⟩ := h.begins
    rfl
  rw [List.cons_append] at htrim
  rw [read_of_blank htrim h.name.2 hg, htext, hsome]
  rfl

/-- A line put together again from its name and its message. -/
theorem rejoined (h : Cut line before name gap text after) : Cut (name ++ ' ' :: text) [] name [' '] text [] := by
  have hspace : ∀ c ∈ [' '], isBlank c = true := List.forall_mem_singleton.mpr (by decide +kernel)
  exact ⟨(List.append_nil _).symm, nofun, ⟨List.cons_ne_nil _ _, hspace⟩, nofun, h.name, h.begins, h.finishes⟩

end Cut

/-- A line either has a name and a message, or fewer than two words; the latter is shown without the blanks around it. -/
theorem cut_or_few (line : List Char) : (∃ before name gap text after, Cut line before name gap text after) ∨
    (words line).length < 2 ∧ Outgoing.read line = .error (.noMessage (String.ofList (trim line))) := by
  obtain hblanks | ⟨before, core, after, rfl, hbefore, hafter, hbegins, hfinishes⟩ := blanks_or_core line
  · have hnothing : trim line = [] := by
      rw [trim, trimStart, List.dropWhile_eq_nil_iff.mpr hblanks]
      rfl
    exact .inr ⟨by rw [words_of_blanks hblanks]; decide, read_of_word hnothing nofun⟩
  have htrim := trim_eq hbefore hafter hbegins hfinishes
  obtain ⟨name, rest, rfl, hname, rfl | ⟨g, more, rfl, hg⟩⟩ := hbegins.exists_word
  · rw [List.append_nil] at htrim ⊢
    refine .inr ⟨?_, read_of_word htrim hname.2⟩
    rw [words_blanks_append hbefore, words_append_blanks hafter, words_of_word hname]
    exact Nat.one_lt_two
  · obtain ⟨gap, text, rfl, hgap, hrest⟩ := exists_front more
    have hblanks : ∀ c ∈ g :: gap, isBlank c = true := List.forall_mem_cons.mpr ⟨hg, hgap⟩
    obtain rfl | htext := hrest
    · -- The message is not empty, since what ends in no blank is not followed by blanks only.
      rw [List.append_nil] at hfinishes
      exact absurd hblanks (hfinishes.of_append (List.cons_ne_nil g gap)).not_blanks
    · have hsome : text ≠ [] := by
        obtain ⟨c, rest, rfl, -⟩ := htext
        exact List.cons_ne_nil c rest
      have hmore : Finishes ((g :: gap) ++ text) := hfinishes.of_append (List.cons_ne_nil g (gap ++ text))
      exact .inl ⟨before, name, g :: gap, text, after, rfl, hbefore, ⟨List.cons_ne_nil g gap, hblanks⟩, hafter, hname,
        htext, hmore.of_append hsome⟩

/--
A line is read just when it has two words: the name is the first, and the message goes from the second to the last, with
nothing changed in it. Written again with one space between, the two are read as before. Any other line is refused as one
without a message; that a message is empty is never found.
-/
theorem two_words_are_read (line : List Char) :
    ((∃ o, Outgoing.read line = .ok o) ↔ 2 ≤ (words line).length) ∧
    (∀ o, Outgoing.read line = .ok o →
      words line = o.name.toList :: words o.text.toList ∧
      (∃ before gap after, Cut line before o.name.toList gap o.text.toList after) ∧
      o.target = .ofName o.name ∧
      Outgoing.read (o.name.toList ++ ' ' :: o.text.toList) = .ok o) ∧
    ((words line).length < 2 → Outgoing.read line = .error (.noMessage (String.ofList (trim line)))) ∧
    Outgoing.read line ≠ .error .emptyMessage := by
  obtain ⟨before, name, gap, text, after, hcut⟩ | ⟨hfew, hread⟩ := cut_or_few line
  · have htwo := hcut.two_words
    have hread := hcut.read_eq
    refine ⟨⟨fun _ => htwo, fun _ => ⟨_, hread⟩⟩, fun o ho => ?_, fun hfew => absurd htwo (Nat.not_le.mpr hfew), ?_⟩
    · rw [hread] at ho
      cases ho
      simp only [String.toList_ofList]
      exact ⟨hcut.words_eq, ⟨before, gap, after, hcut⟩, trivial, hcut.rejoined.read_eq⟩
    · rw [hread]
      nofun
  · refine ⟨⟨fun ⟨o, ho⟩ => ?_, fun htwo => absurd htwo (Nat.not_le.mpr hfew)⟩, fun o ho => ?_, fun _ => hread, ?_⟩
    · rw [hread] at ho
      cases ho
    · rw [hread] at ho
      cases ho
    · rw [hread]
      nofun

/-- Blanks of every kind count, and those inside the message stay. -/
example : Outgoing.read "\u3000alice \u2003 hello\t there\u0085\n".toList =
    .ok ⟨"alice", .ofName "alice", "hello\t there"⟩ := by
  decide +kernel

end Console

end ChordOverlay
