import Mathlib.Data.List.Infix
import GuiMarkup.Markup.Reader
import GuiMarkup.Markup.Writer

/-! The lexer reads each piece that writing produces back as one lexeme, whatever follows
it. -/

namespace GuiMarkup.Markup

open GuiMarkup.Text

/-! ## Escaping -/

/-- Unescaping text without an `&` leaves it as it is. -/
theorem unescapeFrom_plain (total : Nat) :
    ∀ (cs : List Char) (pos : Nat) (acc : List Char), '&' ∉ cs →
      unescapeFrom total cs pos none acc = .ok (acc.reverse ++ cs)
  | [], _, _, _ => by simp [unescapeFrom]
  | c :: cs, pos, acc, h => by
    have hc : c ≠ '&' := fun hc => h (hc ▸ List.mem_cons_self)
    rw [unescapeFrom, if_neg hc, unescapeFrom_plain total cs _ _ (fun h' => h (.tail _ h'))]
    simp

/-- While a reference is open, unescaping collects its name up to the `;` and replaces it. -/
theorem unescapeFrom_ref (total start : Nat) (rest : List Char) :
    ∀ (name ref : List Char) (pos : Nat) (acc : List Char), (∀ d ∈ name, d ≠ ';' ∧ d ≠ '&') →
      unescapeFrom total (name ++ ';' :: rest) pos (some (start, ref)) acc =
        match resolveRef (ref.reverse ++ name) start (pos + utf8Length name) with
        | .ok r => unescapeFrom total rest (pos + utf8Length name + 1) none (r :: acc)
        | .error e => .error e
  | [], ref, pos, acc, _ => by
    -- settle the lookup first, so that both sides' matches reduce
    rcases hr : resolveRef ref.reverse start pos with e | r <;>
      simp only [List.nil_append, unescapeFrom, List.append_nil, utf8Length, List.foldr_nil,
        Nat.add_zero, if_true, hr]
  | d :: name, ref, pos, acc, h => by
    obtain ⟨h1, h2⟩ := h d List.mem_cons_self
    have hlen : utf8Length (d :: name) = d.utf8Size + utf8Length name := rfl
    rw [List.cons_append, unescapeFrom, if_neg h1, if_neg h2,
      unescapeFrom_ref total start rest name (d :: ref) _ acc (fun e he => h e (.tail _ he)), hlen]
    simp [Nat.add_assoc]

/-- Each of the five escaped characters is written as a reference that names it. -/
theorem escapeChar_ref {c : Char} (hc : c = '<' ∨ c = '>' ∨ c = '&' ∨ c = '\'' ∨ c = '"') :
    ∃ name, escapeChar c = '&' :: name ++ [';'] ∧ (∀ s p, resolveRef name s p = .ok c) ∧
      ∀ d ∈ name, d ≠ ';' ∧ d ≠ '&' := by
  rcases hc with rfl | rfl | rfl | rfl | rfl
  · exact ⟨['l', 't'], rfl, fun _ _ => rfl, by simp⟩
  · exact ⟨['g', 't'], rfl, fun _ _ => rfl, by simp⟩
  · exact ⟨['a', 'm', 'p'], rfl, fun _ _ => rfl, by simp⟩
  · exact ⟨['a', 'p', 'o', 's'], rfl, fun _ _ => rfl, by simp⟩
  · exact ⟨['q', 'u', 'o', 't'], rfl, fun _ _ => rfl, by simp⟩

theorem unescapeFrom_escape (total : Nat) :
    ∀ (cs : List Char) (pos : Nat) (acc : List Char),
      unescapeFrom total (escape cs) pos none acc = .ok (acc.reverse ++ cs)
  | [], _, _ => by simp [escape, unescapeFrom]
  | c :: cs, pos, acc => by
    have ih := unescapeFrom_escape total cs
    rw [escape, List.flatMap_cons, ← escape]
    by_cases hc : c = '<' ∨ c = '>' ∨ c = '&' ∨ c = '\'' ∨ c = '"'
    · obtain ⟨name, hesc, hres, hplain⟩ := escapeChar_ref hc
      rw [hesc]
      simp only [List.cons_append, List.append_assoc]
      rw [unescapeFrom, if_pos rfl, unescapeFrom_ref total pos _ name [] _ acc hplain]
      simp [hres, ih]
    · simp only [not_or] at hc
      obtain ⟨h1, h2, h3, h4, h5⟩ := hc
      rw [escapeChar_eq_self ⟨h1, h2, h3, h4, h5⟩, List.singleton_append, unescapeFrom,
        if_neg h3, ih]
      simp

/-- Unescaping undoes escaping. -/
@[simp] theorem unescape_escape (cs : List Char) : unescape (escape cs) = .ok cs := by
  simp [unescape, unescapeFrom_escape]

theorem mem_escapeChar (d : Char) :
    ∀ c ∈ escapeChar d, c ≠ '<' ∧ c ≠ '>' ∧ c ≠ '"' ∧ c ≠ '\'' := by
  by_cases hd : d = '<' ∨ d = '>' ∨ d = '&' ∨ d = '\'' ∨ d = '"'
  · rcases hd with rfl | rfl | rfl | rfl | rfl <;> simp [escapeChar]
  · simp only [not_or] at hd
    obtain ⟨h1, h2, h3, h4, h5⟩ := hd
    intro c hc
    rw [escapeChar_eq_self ⟨h1, h2, h3, h4, h5⟩, List.mem_singleton] at hc
    subst hc
    exact ⟨h1, h2, h5, h4⟩

/-- Escaped text holds none of the characters that end text or a quoted value. -/
theorem mem_escape {c : Char} {cs : List Char} (h : c ∈ escape cs) :
    c ≠ '<' ∧ c ≠ '>' ∧ c ≠ '"' ∧ c ≠ '\'' := by
  simp only [escape, List.mem_flatMap] at h
  obtain ⟨d, -, hd⟩ := h
  exact mem_escapeChar d c hd

theorem escape_eq_nil {cs : List Char} : escape cs = [] ↔ cs = [] := by
  constructor
  · intro h
    cases cs with
    | nil => rfl
    | cons c cs =>
      simp only [escape, List.flatMap_cons, List.append_eq_nil_iff] at h
      unfold escapeChar at h
      split at h <;> simp at h
  · rintro rfl
    rfl

/-! ## CDATA sections -/

/-- Text in which no `]]>` stands. -/
def NoCloser (cs : List Char) : Prop :=
  ¬ [']', ']', '>'] <:+: cs

theorem noCloser_of_length_lt {cs : List Char} (h : cs.length < 3) : NoCloser cs :=
  fun hi => by simpa using Nat.lt_of_le_of_lt hi.length_le h

theorem noCloser_append_left {p l : List Char} (hp : ']' ∉ p) (hl : NoCloser l) :
    NoCloser (p ++ l) := by
  induction p with
  | nil => simpa using hl
  | cons c p ih =>
    intro hi
    rcases List.infix_cons_iff.1 hi with hpre | hi
    · rw [List.cons_prefix_cons] at hpre
      exact hp (hpre.1 ▸ List.mem_cons_self)
    · exact ih (fun h => hp (.tail _ h)) hi

/-- A `]]>` in `l ++ m` with no `>` in `m` stands in `l`. -/
theorem noCloser_append_right {l m : List Char} (hl : NoCloser l) (hm : '>' ∉ m) :
    NoCloser (l ++ m) := by
  induction m using List.reverseRecOn with
  | nil => simpa using hl
  | append_singleton m c ih =>
    have hc : c ≠ '>' := fun hc => hm (by simp [hc])
    intro hi
    rw [← List.append_assoc, List.infix_concat_iff] at hi
    rcases hi with hs | hi
    · rcases List.suffix_concat_iff.1 hs with h | ⟨t, ht, -⟩
      · simp at h
      · have := congrArg List.getLast? ht
        simp at this
        exact hc this.symm
    · exact ih (fun h => hm (by simp [h])) hi

theorem flatten_cdataSections (acc cs : List Char) :
    (cdataSections acc cs).flatten = acc.reverse ++ cs := by
  induction acc, cs using cdataSections.induct with
  | case1 acc => simp [cdataSections]
  | case2 acc t ih => rw [cdataSections, List.flatten_cons, ih]; simp
  | case3 acc c rest _ ih => simp [cdataSections, *]

/-- Cutting keeps `]]>` out of every section. -/
theorem noCloser_of_mem_cdataSections (acc cs : List Char)
    (h : NoCloser (acc.reverse ++ cs.take 2)) : ∀ s ∈ cdataSections acc cs, NoCloser s := by
  induction acc, cs using cdataSections.induct with
  | case1 acc =>
    intro s hs
    simp only [cdataSections, List.mem_singleton] at hs
    simpa [hs] using h
  | case2 acc t ih =>
    intro s hs
    simp only [cdataSections, List.mem_cons] at hs
    rcases hs with rfl | hs
    · simpa using h
    · exact ih (noCloser_of_length_lt (by simp; omega)) s hs
  | case3 acc c rest hpat ih =>
    intro s hs
    simp only [cdataSections] at hs
    refine ih ?_ s hs
    -- one more character of lookahead; it can only complete a `]]>` that the cut would
    -- have taken
    rcases rest with _ | ⟨r0, _ | ⟨r1, more⟩⟩
    · simpa using h
    · simpa using h
    · have hold : NoCloser (acc.reverse ++ [c, r0]) := by simpa using h
      intro hi
      simp only [List.reverse_cons, List.take_succ_cons, List.take_zero, List.append_assoc,
        List.singleton_append] at hi
      rw [show acc.reverse ++ c :: r0 :: [r1] = (acc.reverse ++ [c, r0]) ++ [r1] by simp,
        List.infix_concat_iff] at hi
      rcases hi with hs | hi
      · rcases List.suffix_concat_iff.1 hs with h' | ⟨t, ht, hts⟩
        · simp at h'
        · have hr1 : r1 = '>' := by
            have := congrArg List.getLast? ht
            simp at this
            exact this.symm
          have ht' : t = [']', ']'] := by
            have := congrArg List.dropLast ht
            simpa using this.symm
          rw [ht', List.suffix_iff_eq_drop] at hts
          simp at hts
          obtain ⟨rfl, rfl⟩ := hts
          exact hpat more rfl (by rw [hr1])
      · exact hold hi

/-! ## Where a written tag ends -/

/-- Text that the tag splitter reads from outside quotes back to outside quotes. -/
def PassesSplit (x : List Char) : Prop :=
  ∀ acc r, splitTag none acc (x ++ r) = splitTag none (x.reverse ++ acc) r

/-- Text without `>` and quotes passes the splitter. -/
theorem passesSplit_of_plain :
    ∀ {x : List Char}, (∀ c ∈ x, c ≠ '>' ∧ c ≠ '"' ∧ c ≠ '\'') → PassesSplit x
  | [], _ => fun _ _ => rfl
  | c :: x, h => by
    intro acc r
    obtain ⟨h1, h2, h3⟩ := h c List.mem_cons_self
    rw [List.cons_append, splitTag, if_neg h1, if_neg (by simp [h2, h3]),
      passesSplit_of_plain (fun d hd => h d (.tail _ hd))]
    simp

theorem splitTag_inQuotes (q : Char) (r : List Char) :
    ∀ (v acc : List Char), q ∉ v →
      splitTag (some q) acc (v ++ q :: r) = splitTag none (q :: v.reverse ++ acc) r
  | [], _, _ => by simp [splitTag]
  | c :: v, acc, h => by
    have hc : c ≠ q := fun hc => h (hc ▸ List.mem_cons_self)
    rw [List.cons_append, splitTag, if_neg hc,
      splitTag_inQuotes q r v _ (fun h' => h (.tail _ h'))]
    simp

/-- A value in quotes passes the splitter when it holds no such quote. -/
theorem passesSplit_quoted {q : Char} (hq : q = '"' ∨ q = '\'') {v : List Char} (hv : q ∉ v) :
    PassesSplit (q :: v ++ [q]) := by
  intro acc r
  have hgt : q ≠ '>' := by rcases hq with rfl | rfl <;> decide
  simp only [List.cons_append, List.append_assoc, List.nil_append]
  rw [splitTag, if_neg hgt, if_pos hq, splitTag_inQuotes q r v _ hv]
  simp

theorem PassesSplit.append {x y : List Char} (hx : PassesSplit x) (hy : PassesSplit y) :
    PassesSplit (x ++ y) := by
  intro acc r
  rw [List.append_assoc, hx, hy]
  simp

theorem PassesSplit.flatMap {α : Type} {f : α → List Char} :
    ∀ {l : List α}, (∀ a ∈ l, PassesSplit (f a)) → PassesSplit (l.flatMap f)
  | [], _ => fun _ _ => rfl
  | a :: l, h => by
    rw [List.flatMap_cons]
    exact (h a List.mem_cons_self).append (PassesSplit.flatMap fun b hb => h b (.tail _ hb))

theorem splitTag_close (acc r : List Char) : splitTag none acc ('>' :: r) = some (acc.reverse, r) := by
  simp [splitTag]

/-- What the tag splitter reads before the `>` that ends a tag. -/
theorem splitTag_of_passesSplit {x : List Char} (hx : PassesSplit x) (r : List Char) :
    splitTag none [] (x ++ '>' :: r) = some (x, r) := by
  rw [hx, splitTag_close]
  simp

/-- An attribute as writing puts it after the name of its tag. -/
def writtenAttribute (a : Attribute) : List Char :=
  ' ' :: a.name.toList ++ '=' :: '"' :: escape a.value.toList ++ ['"']

theorem tagText_toList (e : Element) :
    (tagText e).toList = e.name.toList ++ e.attributes.flatMap writtenAttribute := by
  have key : ∀ (attrs : List Attribute) (init : String),
      (attrs.foldl (fun out a =>
        out ++ " " ++ a.name ++ "=\"" ++ String.ofList (escape a.value.toList) ++ "\"") init).toList =
        init.toList ++ attrs.flatMap writtenAttribute := by
    intro attrs
    induction attrs with
    | nil => simp
    | cons a attrs ih =>
      intro init
      simp [ih, writtenAttribute]
  exact key e.attributes e.name

/-- A written tag text passes the splitter when its name and keys hold no `>` and no quote. -/
theorem passesSplit_tagText {e : Element} (hname : PassesSplit e.name.toList)
    (hkeys : ∀ a ∈ e.attributes, ∀ c ∈ a.name.toList, c ≠ '>' ∧ c ≠ '"' ∧ c ≠ '\'') :
    PassesSplit (tagText e).toList := by
  rw [tagText_toList]
  refine hname.append (PassesSplit.flatMap fun a ha => ?_)
  have hkey : PassesSplit (' ' :: a.name.toList ++ ['=']) := by
    apply passesSplit_of_plain
    intro c hc
    simp only [List.cons_append, List.mem_cons, List.mem_append, List.not_mem_nil,
      or_false] at hc
    rcases hc with rfl | hc | rfl
    · decide
    · exact hkeys a ha c hc
    · decide
  have hval : PassesSplit ('"' :: escape a.value.toList ++ ['"']) :=
    passesSplit_quoted (Or.inl rfl) fun h => (mem_escape h).2.2.1 rfl
  have := hkey.append hval
  simpa [writtenAttribute] using this

/-! ## Where a written CDATA section ends -/

/-- Over text without `]]>`, the CDATA splitter stops at the `>` after the closing `]]`. -/
theorem splitAtClose_noCloser (r : List Char) :
    ∀ (x acc : List Char), NoCloser (acc.reverse ++ x) → (x.reverse ++ acc).take 2 = [']', ']'] →
      splitAtClose (fun acc => acc.take 2 == [']', ']']) acc (x ++ '>' :: r) =
        some (acc.reverse ++ x, r)
  | [], acc, _, hend => by
    simp only [List.reverse_nil, List.nil_append] at hend
    simp [splitAtClose, hend]
  | c :: x, acc, hno, hend => by
    have hstop : ¬ (c = '>' ∧ (acc.take 2 == [']', ']']) = true) := by
      rintro ⟨rfl, hacc⟩
      rcases acc with _ | ⟨a, _ | ⟨b, rest⟩⟩
      · simp at hacc
      · simp at hacc
      · simp only [List.take_succ_cons, List.take_zero, beq_iff_eq, List.cons.injEq,
          and_true] at hacc
        obtain ⟨rfl, rfl⟩ := hacc
        exact hno ⟨rest.reverse, x, by simp⟩
    rw [List.cons_append, splitAtClose, if_neg hstop,
      splitAtClose_noCloser r x (c :: acc) (by simpa using hno) (by simpa using hend)]
    simp

/-! ## Lexing written pieces -/

theorem next_text {raw : List Char} (hne : raw ≠ []) (hlt : '<' ∉ raw) (r : List Char)
    (off : Nat) (opened : List (List Char)) :
    next ⟨raw ++ '<' :: r, off, opened⟩ =
      .ok (some (⟨.text raw, off, off + raw.length⟩, ⟨'<' :: r, off + raw.length, opened⟩)) := by
  obtain ⟨c, cs, rfl⟩ := List.exists_cons_of_ne_nil hne
  -- the equation of `next` for text needs the first character to be no `<`
  have hc : c ≠ '<' := fun h => hlt (h ▸ List.mem_cons_self)
  have hall : ∀ d ∈ c :: cs, (d != '<') = true := by
    intro d hd
    have : d ≠ '<' := fun h => hlt (h ▸ hd)
    simpa using this
  have hspan : (c :: cs ++ '<' :: r).span (· != '<') = (c :: cs, '<' :: r) := by
    rw [List.span_eq_takeWhile_dropWhile, List.takeWhile_append_of_pos hall,
      List.dropWhile_append_of_pos hall]
    simp
  simp only [List.cons_append] at hspan ⊢
  rw [next]
  simp only [hspan]

theorem next_markup (p : Nat) (after : List Char) (opened : List (List Char)) :
    next ⟨'<' :: after, p, opened⟩ = (markup p after opened).map some :=
  rfl

theorem markup_cdata {s : List Char} (hs : NoCloser s) (p : Nat) (r : List Char)
    (opened : List (List Char)) :
    markup p ("![CDATA[".toList ++ s ++ "]]>".toList ++ r) opened =
      .ok (⟨.cdata s, p, p + s.length + 12⟩, ⟨r, p + s.length + 12, opened⟩) := by
  have hno : NoCloser ("![CDATA[".toList ++ s ++ "]]".toList) :=
    noCloser_append_right (noCloser_append_left (by decide) hs) (by decide)
  have hsplit := splitAtClose_noCloser r ("![CDATA[".toList ++ s ++ "]]".toList) []
    (by simpa using hno) (by simp)
  simp only [List.reverse_nil, List.nil_append] at hsplit
  have hafter : "![CDATA[".toList ++ s ++ "]]>".toList ++ r =
      '!' :: '[' :: ("CDATA[".toList ++ s ++ "]]".toList ++ '>' :: r) := by simp
  have hsplit' : splitAtClose (fun acc => acc.take 2 == [']', ']']) []
      ('!' :: '[' :: ("CDATA[".toList ++ s ++ "]]".toList ++ '>' :: r)) =
      some ("![CDATA[".toList ++ s ++ "]]".toList, r) := by simpa using hsplit
  rw [hafter, markup]
  simp only [hsplit']
  simp
  omega

/-- Where a tag may start: anything but the `!`, `/` and `?` that open other markup. -/
def StartsTag (s : List Char) : Prop :=
  ∀ c ∈ s.head?, c ≠ '!' ∧ c ≠ '/' ∧ c ≠ '?'

theorem markup_tag {s r : List Char} (hs : StartsTag (s ++ r)) (p : Nat)
    (opened : List (List Char)) :
    markup p (s ++ r) opened =
      match splitTag none [] (s ++ r) with
      | none => .error (.unclosedTag, p)
      | some (inner, rest) =>
        if inner.getLast? == some '/' then
          .ok (⟨.emptyTag inner.dropLast, p, p + inner.length + 2⟩, ⟨rest, p + inner.length + 2, opened⟩)
        else
          .ok (⟨.openTag inner, p, p + inner.length + 2⟩,
            ⟨rest, p + inner.length + 2, tagName inner :: opened⟩) := by
  generalize s ++ r = after at hs ⊢
  cases after with
  | nil => simp [markup, splitTag]
  | cons c tag =>
    obtain ⟨h1, h2, h3⟩ := hs c rfl
    refine (markup.eq_8 p opened c tag h1 h2 h3).trans ?_
    rcases splitTag none [] (c :: tag) with _ | ⟨inner, rest⟩ <;> rfl

/-- A start tag as writing puts it. -/
theorem markup_openTag {s : List Char} (hstart : StartsTag (s ++ ['>'])) (hs : PassesSplit s)
    (hlast : s.getLast? ≠ some '/') (p : Nat) (r : List Char) (opened : List (List Char)) :
    markup p (s ++ '>' :: r) opened =
      .ok (⟨.openTag s, p, p + s.length + 2⟩, ⟨r, p + s.length + 2, tagName s :: opened⟩) := by
  have hstart' : StartsTag (s ++ '>' :: r) := by
    cases s with
    | nil => simp [StartsTag]
    | cons c s => exact hstart
  rw [markup_tag hstart', splitTag_of_passesSplit hs]
  simp [hlast]

/-- An empty tag as writing puts it. -/
theorem markup_emptyTag {s : List Char} (hstart : StartsTag s) (hne : s ≠ []) (hs : PassesSplit s)
    (p : Nat) (r : List Char) (opened : List (List Char)) :
    markup p (s ++ '/' :: '>' :: r) opened =
      .ok (⟨.emptyTag s, p, p + s.length + 3⟩, ⟨r, p + s.length + 3, opened⟩) := by
  have hstart' : StartsTag ((s ++ ['/']) ++ '>' :: r) := by
    obtain ⟨c, s, rfl⟩ := List.exists_cons_of_ne_nil hne
    exact hstart
  have hs' : PassesSplit (s ++ ['/']) :=
    hs.append (passesSplit_of_plain (by simp))
  rw [show s ++ '/' :: '>' :: r = (s ++ ['/']) ++ '>' :: r by simp, markup_tag hstart',
    splitTag_of_passesSplit hs']
  simp
  omega

/-- An end tag as writing puts it, for a name without markup spaces, `>` and quotes. -/
theorem markup_closeTag {name : List Char} (hspace : ∀ c ∈ name, isMarkupSpace c = false)
    (hname : PassesSplit name) (p : Nat) (r : List Char) (opened : List (List Char)) :
    markup p ('/' :: name ++ '>' :: r) (name :: opened) =
      .ok (⟨.closeTag name, p, p + name.length + 3⟩, ⟨r, p + name.length + 3, opened⟩) := by
  have hs : PassesSplit ('/' :: name) :=
    (passesSplit_of_plain (by simp) : PassesSplit ['/']).append hname
  have htrim : trimCloseName name = name := by
    have hdrop : name.reverse.dropWhile isMarkupSpace = name.reverse := by
      cases h : name.reverse with
      | nil => rfl
      | cons c rest =>
        have hmem : c ∈ name.reverse := by
          rw [h]
          exact List.mem_cons_self
        simp [hspace c (List.mem_reverse.1 hmem)]
    simp only [trimCloseName, hdrop, List.reverse_reverse]
    split <;> simp_all
  have hsplit := splitTag_of_passesSplit hs r
  simp only [List.cons_append] at hsplit ⊢
  simp [markup, hsplit, htrim]
  omega

end GuiMarkup.Markup
