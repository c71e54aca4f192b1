import MxLib.Comm.Proxy

/-!
# Lists of proxies

A setting is a list of entries with semicolons between them.  An entry is a host, with a port behind
it, a scheme for its own address in front of it, and in front of that the scheme it is for.  There
may be blanks around all of them.

The loop that skips the blanks at the start goes the wrong way, and the blanks between the host, the
colon and the port are not skipped at all.  So the right host and port are found exactly where the
selected entry has no such blanks (`selects_iff`).
-/

namespace MxLib.Comm.Proxy

open MxLib.Library

/-! ### Entries -/

def isSeparator (ch : WChar) : Bool :=
  ch == 0 || ch == 0x3B || ch == 0x3D || ch == 0x2F || ch == 0x3A

/-- A character of a scheme. -/
def isNameChar (ch : WChar) : Bool := !isSeparator ch && !isBlank ch

/-- Text without separators. -/
def IsFree (w : List WChar) : Prop := ∀ ch ∈ w, isSeparator ch = false

def IsBlanks (w : List WChar) : Prop := ∀ ch ∈ w, isBlank ch = true

instance (w : List WChar) : Decidable (IsFree w) := List.decidableBAll _ w

instance (w : List WChar) : Decidable (IsBlanks w) := List.decidableBAll _ w

/-- A scheme with blanks around it. -/
structure Scheme where
  before : List WChar
  name : List WChar
  after : List WChar
  before_blank : IsBlanks before
  after_blank : IsBlanks after
  ne_nil : name ≠ []
  isName : ∀ ch ∈ name, isNameChar ch = true

/-- A host with blanks around it.  There may be blanks inside of it too. -/
structure Host where
  before : List WChar
  name : List WChar
  after : List WChar
  before_blank : IsBlanks before
  after_blank : IsBlanks after
  ne_nil : name ≠ []
  free : IsFree name
  head_not_blank : isBlank (name.head ne_nil) = false
  last_not_blank : isBlank (name.getLast ne_nil) = false

/-- A port with blanks around it. -/
structure Port where
  before : List WChar
  digits : List WChar
  after : List WChar
  before_blank : IsBlanks before
  after_blank : IsBlanks after
  ne_nil : digits ≠ []
  isDigit : ∀ ch ∈ digits, Decimal.isDigit ch.toNat = true
  pos : 1 ≤ portValue 0 digits
  le_max : portValue 0 digits ≤ 65535

/-- `[key=][scheme://]host[:port]` -/
structure Entry where
  key : Option Scheme
  scheme : Option Scheme
  host : Host
  port : Option Port

def Scheme.text (p : Scheme) : List WChar := p.before ++ (p.name ++ p.after)

namespace Entry

variable (e : Entry)

def keyText : List WChar := e.key.elim [] fun p => p.text ++ [0x3D]

def schemeText : List WChar := e.scheme.elim [] fun p => p.text ++ wide "://"

def portText : List WChar := e.port.elim [] fun p => 0x3A :: (p.before ++ (p.digits ++ p.after))

/-- The host and the port. -/
def body : List WChar := e.host.before ++ (e.host.name ++ (e.host.after ++ e.portText))

def text : List WChar := e.keyText ++ (e.schemeText ++ e.body)

/-- The entry is for this scheme. -/
def isFor (szSchemeW : List WChar) : Bool := e.key.map Scheme.name == some szSchemeW

/-- The port that is given, or the one of a proxy. -/
def portNumber : Nat := e.port.elim 8080 fun p => portValue 0 p.digits

/-- There are no blanks in front of the host, and none between it and the digits of the port. -/
def IsTight : Prop := e.host.before = [] ∧ ∀ p ∈ e.port, e.host.after = [] ∧ p.before = []

end Entry

/-- The entries of a setting. -/
structure Setting where
  first : Entry
  rest : List Entry

/-- The other entries, each with the semicolon in front of it. -/
def restText (rest : List Entry) : List WChar := rest.flatMap fun e => 0x3B :: e.text

def Setting.text (l : Setting) : List WChar := l.first.text ++ restText l.rest

/-- The entry for the scheme, or the first one. -/
def Setting.select (l : Setting) (szSchemeW : List WChar) : Entry :=
  ((l.first :: l.rest).find? (·.isFor szSchemeW)).getD l.first

/-- A URL to connect to, with its scheme. -/
structure TargetUrl where
  name : List WChar
  rest : List WChar
  ne_nil : name ≠ []
  isName : ∀ ch ∈ name, isNameChar ch = true

def TargetUrl.text (u : TargetUrl) : List WChar := u.name ++ (wide "://" ++ u.rest)

/-- The scheme that a proxy is needed for. -/
def wantedScheme (target : Option TargetUrl) : List WChar :=
  match target with
  | none => wide "http"
  | some u =>
    if u.name = wide "ws" then wide "http" else if u.name = wide "wss" then wide "https" else u.name

/-- The host of the entry is left in the string and its port is set, without a read outside of the
string. -/
def Selects (l : Setting) (target : Option TargetUrl) : Prop :=
  isValidProxyValue l.text (target.map TargetUrl.text) =
    some (true, (l.select (wantedScheme target)).host.name,
      (l.select (wantedScheme target)).portNumber)

/-! ### Characters -/

section Chars

variable {w : List WChar} {ch : WChar}

theorem isSeparator_of_isBlank (h : isBlank ch = true) : isSeparator ch = false := by
  rw [isBlank, Bool.or_eq_true, beq_iff_eq, beq_iff_eq] at h
  rcases h with rfl | rfl <;> rfl

theorem isSeparator_of_isDigit (h : Decimal.isDigit ch.toNat = true) : isSeparator ch = false := by
  refine Bool.eq_false_iff.mpr fun hsep => ?_
  rw [isSeparator, Bool.or_eq_true, Bool.or_eq_true, Bool.or_eq_true, Bool.or_eq_true, beq_iff_eq,
    beq_iff_eq, beq_iff_eq, beq_iff_eq, beq_iff_eq] at hsep
  obtain (((rfl | rfl) | rfl) | rfl) | rfl := hsep <;> cases h

theorem isBlank_of_isDigit (h : Decimal.isDigit ch.toNat = true) : isBlank ch = false := by
  refine Bool.eq_false_iff.mpr fun hblank => ?_
  rw [isBlank, Bool.or_eq_true, beq_iff_eq, beq_iff_eq] at hblank
  obtain rfl | rfl := hblank <;> cases h

theorem isSeparator_of_isNameChar (h : isNameChar ch = true) : isSeparator ch = false := by
  rw [isNameChar, Bool.and_eq_true, Bool.not_eq_true'] at h
  exact h.1

theorem isBlank_of_isNameChar (h : isNameChar ch = true) : isBlank ch = false := by
  rw [isNameChar, Bool.and_eq_true, Bool.not_eq_true', Bool.not_eq_true'] at h
  exact h.2

theorem IsFree.notMem (hw : IsFree w) (hch : isSeparator ch = true) : ch ∉ w := by
  intro hmem
  rw [hw ch hmem] at hch
  cases hch

theorem IsFree.append {v : List WChar} (hw : IsFree w) (hv : IsFree v) : IsFree (w ++ v) :=
  List.forall_mem_append.mpr ⟨hw, hv⟩

theorem IsBlanks.isFree (hw : IsBlanks w) : IsFree w := fun ch hch =>
  isSeparator_of_isBlank (hw ch hch)

theorem Scheme.isFree_name (p : Scheme) : IsFree p.name := fun ch hch =>
  isSeparator_of_isNameChar (p.isName ch hch)

theorem Scheme.isFree_text (p : Scheme) : IsFree p.text :=
  p.before_blank.isFree.append (p.isFree_name.append p.after_blank.isFree)

theorem Port.isFree_digits (p : Port) : IsFree p.digits := fun ch hch =>
  isSeparator_of_isDigit (p.isDigit ch hch)

/-- The part of the body in front of the port. -/
theorem Host.isFree_text (p : Host) : IsFree (p.before ++ (p.name ++ p.after)) :=
  p.before_blank.isFree.append (p.free.append p.after_blank.isFree)

theorem Port.isFree_text (p : Port) : IsFree (p.before ++ (p.digits ++ p.after)) :=
  p.before_blank.isFree.append (p.isFree_digits.append p.after_blank.isFree)

end Chars

/-! ### The parts of an entry -/

namespace Entry

variable (e : Entry) {ch : WChar}

theorem eq_of_mem_keyText (h : ch ∈ e.keyText) (hsep : isSeparator ch = true) : ch = 0x3D := by
  rw [keyText] at h
  cases hkey : e.key with
  | none =>
    rw [hkey] at h
    cases h
  | some p =>
    rw [hkey] at h
    rcases List.mem_append.mp h with h | h
    · exact absurd h (p.isFree_text.notMem hsep)
    · exact List.mem_singleton.mp h

theorem eq_of_mem_schemeText (h : ch ∈ e.schemeText) (hsep : isSeparator ch = true) :
    ch = 0x3A ∨ ch = 0x2F := by
  rw [schemeText] at h
  cases hscheme : e.scheme with
  | none =>
    rw [hscheme] at h
    cases h
  | some p =>
    rw [hscheme] at h
    rcases List.mem_append.mp h with h | h
    · exact absurd h (p.isFree_text.notMem hsep)
    · have hall : ∀ ch ∈ wide "://", ch = 0x3A ∨ ch = 0x2F :=
        List.all_iff_forall_prop.mp (by decide)
      exact hall ch h

theorem eq_of_mem_body (h : ch ∈ e.body) (hsep : isSeparator ch = true) : ch = 0x3A := by
  have hbody : e.body = e.host.before ++ (e.host.name ++ e.host.after) ++ e.portText := by
    rw [body, List.append_assoc, List.append_assoc]
  rw [hbody, portText] at h
  rcases List.mem_append.mp h with h | h
  · exact absurd h (e.host.isFree_text.notMem hsep)
  · cases hport : e.port with
    | none =>
      rw [hport] at h
      cases h
    | some p =>
      rw [hport] at h
      rcases List.mem_cons.mp h with h | h
      · exact h
      · exact absurd h (p.isFree_text.notMem hsep)

/-- Neither a semicolon nor the end of a string is in an entry. -/
theorem notMem_text : (0x3B : WChar) ∉ e.text ∧ (0 : WChar) ∉ e.text := by
  have hnot : ∀ ch, isSeparator ch = true → ch ∈ e.text → ch = 0x3D ∨ ch = 0x3A ∨ ch = 0x2F := by
    intro ch hsep hmem
    rcases List.mem_append.mp hmem with hmem | hmem
    · exact .inl (e.eq_of_mem_keyText hmem hsep)
    · rcases List.mem_append.mp hmem with hmem | hmem
      · exact .inr (e.eq_of_mem_schemeText hmem hsep)
      · exact .inr (.inl (e.eq_of_mem_body hmem hsep))
  exact ⟨fun hmem => by simpa using hnot _ rfl hmem, fun hmem => by simpa using hnot _ rfl hmem⟩

/-- The blanks that an entry begins with, and the text behind them. -/
structure Lead (b s : List WChar) : Prop where
  text_eq : e.text = b ++ s
  blanks : IsBlanks b
  head : ∃ ch w, s = ch :: w ∧ isBlank ch = false
  of_none : e.key = none → (0x3D : WChar) ∉ s
  of_some : ∀ p, e.key = some p →
    s = p.name ++ (p.after ++ 0x3D :: (e.schemeText ++ e.body))

theorem exists_lead : ∃ b s, e.Lead b s := by
  have hname : ∀ name : List WChar, name ≠ [] → (∀ ch ∈ name, isNameChar ch = true) →
      ∀ s, ∃ ch w, name ++ s = ch :: w ∧ isBlank ch = false := by
    intro name hne hname s
    obtain ⟨ch, tail, rfl⟩ := List.exists_cons_of_ne_nil hne
    exact ⟨ch, tail ++ s, rfl, isBlank_of_isNameChar (hname ch List.mem_cons_self)⟩
  cases hkey : e.key with
  | some p =>
    refine ⟨p.before, p.name ++ (p.after ++ 0x3D :: (e.schemeText ++ e.body)), ?_,
      p.before_blank, hname _ p.ne_nil p.isName _, fun h => ?_, fun q hq => ?_⟩
    · rw [text, keyText, hkey]
      simp [Scheme.text]
    · cases hkey.symm.trans h
    · obtain rfl := Option.some.inj (hkey.symm.trans hq)
      rfl
  | none =>
    have hsome : ∀ p, e.key ≠ some p := fun p hp => by cases hkey.symm.trans hp
    have hfront : (0x3D : WChar) ∉ e.schemeText ++ e.body := by
      intro hmem
      rcases List.mem_append.mp hmem with hmem | hmem
      · exact absurd (e.eq_of_mem_schemeText hmem rfl) (by decide)
      · exact absurd (e.eq_of_mem_body hmem rfl) (by decide)
    have htext : e.text = e.schemeText ++ e.body := by
      rw [text, keyText, hkey]
      rfl
    rw [← htext] at hfront
    cases hscheme : e.scheme with
    | some p =>
      have hsplit : e.text = p.before ++ (p.name ++ (p.after ++ (wide "://" ++ e.body))) := by
        rw [htext, schemeText, hscheme]
        simp [Scheme.text]
      refine ⟨p.before, _, hsplit, p.before_blank, hname _ p.ne_nil p.isName _, fun _ => ?_,
        fun q hq => absurd hq (hsome q)⟩
      rw [hsplit] at hfront
      exact fun hmem => hfront (List.mem_append_right _ hmem)
    | none =>
      have hsplit : e.text = e.host.before ++ (e.host.name ++ (e.host.after ++ e.portText)) := by
        rw [htext, schemeText, hscheme]
        rfl
      refine ⟨e.host.before, _, hsplit, e.host.before_blank, ?_, fun _ => ?_,
        fun q hq => absurd hq (hsome q)⟩
      · have hhead := e.host.head_not_blank
        obtain ⟨ch, tail, hcons⟩ := List.exists_cons_of_ne_nil e.host.ne_nil
        simp only [hcons, List.head_cons] at hhead
        exact ⟨ch, _, by rw [hcons, List.cons_append], hhead⟩
      · rw [hsplit] at hfront
        exact fun hmem => hfront (List.mem_append_right _ hmem)

end Entry

/-! ### The search -/

section Search

variable {t name b s post : List WChar} {k : Nat} {e : Entry}

/-- The text behind an entry. -/
def IsRest (post : List WChar) : Prop := post = [] ∨ ∃ q, post = 0x3B :: q

theorem takeWhile_name {x : List WChar} (hname : ∀ ch ∈ name, isNameChar ch = true)
    (hb : IsBlanks b) : (name ++ (b ++ 0x3D :: x)).takeWhile isNameChar = name := by
  have hstop : (b ++ 0x3D :: x).takeWhile isNameChar = [] := by
    cases b with
    | nil => exact List.takeWhile_cons_of_neg (by decide)
    | cons ch b =>
      refine List.takeWhile_cons_of_neg fun hch => ?_
      have := isBlank_of_isNameChar hch
      rw [hb ch List.mem_cons_self] at this
      cases this
  rw [List.takeWhile_append_of_pos hname, hstop, List.append_nil]

/-- **A name with an equals sign behind it is the key of the entry.** -/
theorem isFor_of_eq (hlead : e.Lead b s) (hpost : IsRest post)
    (hname : ∀ ch ∈ name, isNameChar ch = true) {b' x : List WChar} (hb' : IsBlanks b')
    (heq : s ++ post = name ++ (b' ++ 0x3D :: x)) : e.isFor name = true := by
  cases hkey : e.key with
  | some p =>
    rw [hlead.of_some p hkey, List.append_assoc, List.append_assoc, List.cons_append] at heq
    have hsame := congrArg (List.takeWhile isNameChar) heq
    rw [takeWhile_name p.isName p.after_blank, takeWhile_name hname hb'] at hsame
    rw [Entry.isFor, hkey, Option.map_some, hsame]
    exact beq_self_eq_true _
  | none =>
    -- the equals sign would be behind a semicolon
    have hfree : IsFree (name ++ b') :=
      List.forall_mem_append.mpr
        ⟨fun ch hch => isSeparator_of_isNameChar (hname ch hch), hb'.isFree⟩
    have hno := hlead.of_none hkey
    rw [← List.append_assoc] at heq
    rcases List.append_eq_append_iff.mp heq with ⟨c, hc, hpost'⟩ | ⟨c, hc, hx⟩
    · rcases hpost with rfl | ⟨q, rfl⟩
      · cases c <;> cases hpost'
      · cases c with
        | nil => cases hpost'
        | cons ch c =>
          obtain rfl : (0x3B : WChar) = ch := (List.cons.inj hpost').1
          have hmem : (0x3B : WChar) ∈ name ++ b' :=
            hc ▸ List.mem_append_right _ List.mem_cons_self
          exact absurd hmem (hfree.notMem rfl)
    · cases c with
      | nil => rcases hpost with rfl | ⟨q, rfl⟩ <;> cases hx
      | cons ch c =>
        obtain rfl : (0x3D : WChar) = ch := (List.cons.inj hx).1
        exact absurd (hc ▸ List.mem_append_right _ List.mem_cons_self) hno

theorem ne_zero_of_isName (hname : ∀ ch ∈ name, isNameChar ch = true) : ∀ ch ∈ name, ch ≠ 0 := by
  rintro ch hch rfl
  cases hname 0 hch

theorem matchScheme_eq_some {x : List WChar} (h : textAt t k = some (name ++ (b ++ 0x3D :: x)))
    (hname : ∀ ch ∈ name, isNameChar ch = true) (hb : IsBlanks b) :
    matchScheme t k name = some (some (k + name.length + b.length + 1)) := by
  have hcompare : strNCompareW (name ++ (b ++ 0x3D :: x)) name name.length false = true :=
    (strNCompareW_iff (ne_zero_of_isName hname) _).mpr (List.prefix_append _ _)
  have hblanks := textAt_add h
  rw [matchScheme, h]
  change (if strNCompareW (name ++ (b ++ 0x3D :: x)) name name.length false = true then _
    else _) = _
  rw [hcompare, if_pos rfl, skipBlanks_of hblanks hb rfl]
  change (readAt t (k + name.length + b.length) >>= _) = _
  rw [readAt_add hblanks]
  rfl

theorem matchScheme_eq_none (h : textAt t k = some s)
    (hname : ∀ ch ∈ name, isNameChar ch = true)
    (hno : ∀ b x, IsBlanks b → s ≠ name ++ (b ++ 0x3D :: x)) :
    matchScheme t k name = some none := by
  rw [matchScheme, h]
  change (if strNCompareW s name name.length false = true then _ else _) = _
  split
  · rename_i hcompare
    obtain ⟨r, rfl⟩ := (strNCompareW_iff (ne_zero_of_isName hname) s).mp hcompare
    have hsplit : r = r.takeWhile isBlank ++ r.dropWhile isBlank :=
      List.takeWhile_append_dropWhile.symm
    have hblanks : IsBlanks (r.takeWhile isBlank) := fun ch hch =>
      List.all_eq_true.mp List.all_takeWhile ch hch
    have hrest := textAt_add h
    have hne := hno (r.takeWhile isBlank)
    have hstop : isBlank (charAt (r.dropWhile isBlank) 0) = false := by
      cases hdrop : r.dropWhile isBlank with
      | nil => rfl
      | cons ch x =>
        have hhead := List.head_dropWhile_not isBlank (l := r) (by rw [hdrop]; nofun)
        simpa only [hdrop, List.head_cons, charAt_cons_zero] using hhead
    generalize r.takeWhile isBlank = b at hsplit hblanks hne
    generalize r.dropWhile isBlank = w at hsplit hstop
    subst hsplit
    rw [skipBlanks_of hrest hblanks hstop]
    change (readAt t (k + name.length + b.length) >>= _) = _
    rw [readAt_of (textAt_add hrest)]
    refine if_neg fun hequals => ?_
    cases w with
    | nil => cases hequals
    | cons ch x =>
      obtain rfl : ch = 0x3D := beq_iff_eq.mp hequals
      exact hne x hblanks rfl
  · rfl

/-- **One turn of the search.** -/
theorem findEntry_turn (h : textAt t k = some (e.text ++ post)) (hpost : IsRest post)
    (hzero : (0 : WChar) ∉ post) (hname : ∀ ch ∈ name, isNameChar ch = true) (fuel : Nat) :
    findEntry t name (fuel + 1) k =
      if e.isFor name then some (some (k + e.keyText.length))
      else if post = [] then some none
      else findEntry t name fuel (k + e.text.length + 1) := by
  obtain ⟨b, s, hlead⟩ := e.exists_lead
  have hlen : e.text.length = b.length + s.length := by rw [hlead.text_eq, List.length_append]
  have hfree := e.notMem_text
  rw [hlead.text_eq, List.append_assoc] at h
  rw [hlead.text_eq] at hfree
  have hs := textAt_add h
  obtain ⟨ch, w, hcons, hblank⟩ := hlead.head
  have hfirst : (charAt (b ++ (s ++ post)) 0 == 0) = false := by
    obtain ⟨c, r, hc⟩ : ∃ c r, b ++ s = c :: r :=
      List.exists_cons_of_ne_nil (by rw [hcons]; exact List.append_ne_nil_of_right_ne_nil _ nofun)
    rw [← List.append_assoc, hc]
    exact beq_eq_false_iff_ne.mpr fun h => hfree.2 (hc ▸ h ▸ List.mem_cons_self)
  have hskip : skipBlanks t k = some (k + b.length) :=
    skipBlanks_of h hlead.blanks (by rw [hcons]; exact hblank)
  rw [findEntry, readAt_of h]
  change (if (charAt (b ++ (s ++ post)) 0 == 0) = true then _ else _) = _
  rw [hfirst, if_neg Bool.false_ne_true, hskip]
  change (matchScheme t (k + b.length) name >>= _) = _
  cases hfor : e.isFor name with
  | true =>
    obtain ⟨p, hkey, hp⟩ := Option.map_eq_some_iff.mp (beq_iff_eq.mp hfor)
    have hsome := hlead.of_some p hkey
    have hlength := congrArg List.length hlead.text_eq
    rw [hsome, List.append_assoc, List.append_assoc, List.cons_append, hp] at hs
    rw [hsome, hp, Entry.text] at hlength
    simp only [List.length_append, List.length_cons] at hlength
    rw [if_pos rfl, matchScheme_eq_some hs hname p.after_blank]
    change some (some (k + b.length + name.length + p.after.length + 1)) = _
    congr 2
    omega
  | false =>
    rw [if_neg Bool.false_ne_true, matchScheme_eq_none hs hname ?_]
    · change (strChrW t (k + b.length) 0x3B >>= _) = _
      have hsemicolon : (0x3B : WChar) ∉ s := fun h => hfree.1 (List.mem_append_right _ h)
      have hend : (0 : WChar) ∉ s ++ post := fun h => by
        rcases List.mem_append.mp h with h | h
        · exact hfree.2 (List.mem_append_right _ h)
        · exact hzero h
      rcases hpost with rfl | ⟨q, rfl⟩
      · rw [strChrW_eq_none hs (by rwa [List.append_nil]) hend, if_pos rfl]
        rfl
      · rw [strChrW_eq_some hs hsemicolon hend, if_neg nofun, hlen, ← Nat.add_assoc]
        rfl
    · intro b' x hb' heq
      rw [isFor_of_eq hlead hpost hname hb' heq] at hfor
      cases hfor

theorem restText_cons (e : Entry) (rest : List Entry) :
    restText (e :: rest) = 0x3B :: (e.text ++ restText rest) := by
  rw [restText, List.flatMap_cons, List.cons_append, restText]

theorem isRest_restText (rest : List Entry) :
    IsRest (restText rest) ∧ (0 : WChar) ∉ restText rest ∧
      rest.length ≤ (restText rest).length := by
  induction rest with
  | nil => exact ⟨.inl rfl, nofun, Nat.zero_le _⟩
  | cons e rest ih =>
    obtain ⟨-, hzero, hlen⟩ := ih
    rw [restText_cons]
    refine ⟨.inr ⟨_, rfl⟩, fun hmem => ?_, ?_⟩
    · rcases List.mem_cons.mp hmem with h | h
      · cases h
      · rcases List.mem_append.mp h with h | h
        · exact e.notMem_text.2 h
        · exact hzero h
    · rw [List.length_cons, List.length_cons, List.length_append]
      omega

/-- **The search** ends behind the equals sign of the first entry for the scheme. -/
theorem findEntry_eq (hname : ∀ ch ∈ name, isNameChar ch = true) (rest : List Entry) {fuel : Nat}
    (h : textAt t k = some (e.text ++ restText rest)) (hfuel : rest.length < fuel) :
    match (e :: rest).find? (·.isFor name) with
    | some e' => ∃ k' post, findEntry t name fuel k = some (some (k' + e'.keyText.length)) ∧
        textAt t k' = some (e'.text ++ post) ∧ IsRest post ∧ (0 : WChar) ∉ post
    | none => findEntry t name fuel k = some none := by
  induction rest generalizing e k fuel with
  | nil =>
    obtain ⟨fuel, rfl⟩ := Nat.exists_eq_add_of_lt hfuel
    have hturn := findEntry_turn h (.inl rfl) nofun hname (0 + fuel)
    cases hfor : e.isFor name with
    | true =>
      have hfind : [e].find? (·.isFor name) = some e := List.find?_cons_of_pos hfor
      rw [hfor, if_pos rfl] at hturn
      rw [hfind]
      exact ⟨k, _, hturn, h, .inl rfl, nofun⟩
    | false =>
      have hfind : [e].find? (·.isFor name) = none :=
        List.find?_cons_of_neg (Bool.eq_false_iff.mp hfor)
      rw [hfor, if_neg Bool.false_ne_true, if_pos (show restText [] = [] from rfl)] at hturn
      rw [hfind]
      exact hturn
  | cons e' rest ih =>
    obtain ⟨fuel, rfl⟩ := Nat.exists_eq_add_of_lt hfuel
    obtain ⟨hrest, hzero, -⟩ := isRest_restText (e' :: rest)
    have hturn := findEntry_turn h hrest hzero hname ((e' :: rest).length + fuel)
    cases hfor : e.isFor name with
    | true =>
      have hfind : (e :: e' :: rest).find? (·.isFor name) = some e :=
        List.find?_cons_of_pos hfor
      rw [hfor, if_pos rfl] at hturn
      rw [hfind]
      exact ⟨k, _, hturn, h, hrest, hzero⟩
    | false =>
      have hfind : (e :: e' :: rest).find? (·.isFor name) = (e' :: rest).find? (·.isFor name) :=
        List.find?_cons_of_neg (Bool.eq_false_iff.mp hfor)
      have hnext := textAt_add h
      rw [restText_cons] at hnext hturn
      rw [hfor, if_neg Bool.false_ne_true, if_neg nofun] at hturn
      rw [hfind, hturn]
      exact ih (@textAt_add t [0x3B] _ _ hnext) (by rw [List.length_cons]; omega)

/-- The entry that is selected, and where it is. -/
theorem findEntry_select (l : Setting) (hname : ∀ ch ∈ name, isNameChar ch = true) :
    ∃ found k post, findEntry l.text name (l.text.length + 1) 0 = some found ∧
      textAt l.text k = some ((l.select name).text ++ post) ∧ IsRest post ∧ (0 : WChar) ∉ post ∧
      (found = some (k + (l.select name).keyText.length) ∧ (l.select name).key ≠ none ∨
        found = none ∧ k = 0) := by
  obtain ⟨hrest, hzero, hlen⟩ := isRest_restText l.rest
  have hfuel : l.rest.length < l.text.length + 1 := by
    rw [Setting.text, List.length_append]
    omega
  have hfind := findEntry_eq hname l.rest (textAt_zero l.text) hfuel
  rw [Setting.select]
  cases hselect : (l.first :: l.rest).find? (·.isFor name) with
  | none =>
    rw [hselect] at hfind
    exact ⟨none, 0, _, hfind, textAt_zero l.text, hrest, hzero, .inr ⟨rfl, rfl⟩⟩
  | some e =>
    rw [hselect] at hfind
    obtain ⟨k, post, hfound, htext, hpost, hzero'⟩ := hfind
    have hfor := List.find?_some hselect
    refine ⟨_, k, post, hfound, htext, hpost, hzero', .inl ⟨rfl, fun hkey => ?_⟩⟩
    rw [Option.getD_some, Entry.isFor] at *
    rw [hkey] at hfor
    cases hfor

theorem entryEnd_eq (h : textAt t k = some (s ++ post)) (hs : (0x3B : WChar) ∉ s)
    (hzero : (0 : WChar) ∉ s ++ post) (hpost : IsRest post) :
    entryEnd t k = some (k + s.length) := by
  rw [entryEnd]
  rcases hpost with rfl | ⟨q, rfl⟩
  · rw [List.append_nil] at h hzero
    rw [strChrW_eq_none h hs hzero, strLenW_of h hzero]
    rfl
  · rw [strChrW_eq_some h hs hzero]
    rfl

/-! ### The parts in front of the host -/

/-- Nothing in front of the scheme of the address, or the key of the entry. -/
def IsFront (e : Entry) (a : List WChar) : Prop := a = [] ∨ a = e.keyText

/-- The key ends with its equals sign. -/
theorem keyText_eq (e : Entry) :
    e.keyText = [] ∧ e.key = none ∨ ∃ w, IsFree w ∧ e.keyText = w ++ [0x3D] := by
  rw [Entry.keyText]
  cases hkey : e.key with
  | none => exact .inl ⟨rfl, rfl⟩
  | some p => exact .inr ⟨p.text, p.isFree_text, rfl⟩

/-- The three searches, where there is no path. -/
theorem stripEntry_of {nStart nEnd : Nat} {scheme key : Option Nat}
    (hscheme : strNFindW t k (wide "://") (nEnd - k) = some scheme)
    (hstart : scheme.elim k (· + 3) = nStart)
    (hpath : strNChrW t nStart 0x2F (nEnd - nStart) = some none)
    (hkey : strNChrW t nStart 0x3D (nEnd - nStart) = some key) :
    stripEntry t k nEnd = some (key.elim nStart (· + 1), nEnd) := by
  subst hstart
  rw [stripEntry, hscheme]
  cases scheme with
  | none =>
    change (strNChrW t k 0x2F (nEnd - k) >>= _) = _
    rw [show strNChrW t k 0x2F (nEnd - k) = some none from hpath]
    change (strNChrW t k 0x3D (nEnd - k) >>= _) = _
    rw [show strNChrW t k 0x3D (nEnd - k) = some key from hkey]
    cases key <;> rfl
  | some j =>
    change (strNChrW t (j + 3) 0x2F (nEnd - (j + 3)) >>= _) = _
    rw [show strNChrW t (j + 3) 0x2F (nEnd - (j + 3)) = some none from hpath]
    change (strNChrW t (j + 3) 0x3D (nEnd - (j + 3)) >>= _) = _
    rw [show strNChrW t (j + 3) 0x3D (nEnd - (j + 3)) = some key from hkey]
    cases key <;> rfl

theorem stripEntry_eq {a : List WChar} (ha : IsFront e a)
    (h : textAt t k = some (a ++ (e.schemeText ++ (e.body ++ post)))) :
    stripEntry t k (k + (a ++ (e.schemeText ++ e.body)).length) =
      some (k + (a ++ e.schemeText).length, k + (a ++ (e.schemeText ++ e.body)).length) := by
  have hkey : ∀ ch ∈ a, isSeparator ch = true → ch = 0x3D := by
    intro ch hch hsep
    rcases ha with rfl | rfl
    · cases hch
    · exact e.eq_of_mem_keyText hch hsep
  have hbody : ∀ ch, isSeparator ch = true → ch ≠ 0x3A → ch ∉ e.body := fun ch hsep hne hch =>
    hne (e.eq_of_mem_body hch hsep)
  have hnEnd : k + (a ++ (e.schemeText ++ e.body)).length - k =
      (a ++ (e.schemeText ++ e.body)).length := Nat.add_sub_cancel_left _ _
  cases hscheme : e.scheme with
  | some p =>
    have hs : e.schemeText = p.text ++ wide "://" := by
      rw [Entry.schemeText, hscheme]
      rfl
    have hfree : ∀ ch, isSeparator ch = true → ch ≠ 0x3D → ch ∉ a ++ p.text := by
      intro ch hsep hne hch
      rcases List.mem_append.mp hch with hch | hch
      · exact hne (hkey ch hch hsep)
      · exact p.isFree_text.notMem hsep hch
    have hthree : (wide "://").length = 3 := rfl
    have hfind : strNFindW t k (wide "://") (a ++ (e.schemeText ++ e.body)).length =
        some (some (k + (a ++ p.text).length)) := by
      rw [hs, List.append_assoc, ← List.append_assoc] at h
      refine strNFindW_scheme_eq_some h (hfree _ rfl (by decide)) (hfree _ rfl (by decide)) ?_
      simp only [hs, List.length_append]
      omega
    have hstart : k + (a ++ p.text).length + 3 = k + (a ++ e.schemeText).length := by
      simp only [hs, List.length_append]
      omega
    have hfront : textAt t (k + (a ++ e.schemeText).length) = some (e.body ++ post) :=
      textAt_add (by rwa [List.append_assoc])
    have hlength : k + (a ++ (e.schemeText ++ e.body)).length - (k + (a ++ e.schemeText).length) =
        e.body.length := by
      simp only [List.length_append]
      omega
    have hpath := strNChrW_eq_none hfront (hbody 0x2F rfl (by decide)) (hbody 0 rfl (by decide))
    have hequals := strNChrW_eq_none hfront (hbody 0x3D rfl (by decide)) (hbody 0 rfl (by decide))
    rw [← hnEnd] at hfind
    rw [← hlength] at hpath hequals
    exact stripEntry_of hfind hstart hpath hequals
  | none =>
    have hs : e.schemeText = [] := by
      rw [Entry.schemeText, hscheme]
      rfl
    rw [hs, List.nil_append, ← List.append_assoc] at h
    rw [hs, List.nil_append] at hnEnd
    rw [hs, List.nil_append, List.append_nil]
    have hfree : ∀ ch, isSeparator ch = true → ch ≠ 0x3A → ch ≠ 0x3D → ch ∉ a ++ e.body := by
      intro ch hsep hne hne' hch
      rcases List.mem_append.mp hch with hch | hch
      · exact hne' (hkey ch hch hsep)
      · exact hbody ch hsep hne hch
    have hpath := strNChrW_eq_none h (hfree 0x2F rfl (by decide) (by decide))
      (hfree 0 rfl (by decide) (by decide))
    have hfind := strNFindW_scheme_eq_none h (hfree 0x2F rfl (by decide) (by decide))
      (hfree 0 rfl (by decide) (by decide))
    rw [← hnEnd] at hpath hfind
    obtain rfl | ⟨w, hw, rfl⟩ : a = [] ∨ ∃ w, IsFree w ∧ a = w ++ [0x3D] := by
      rcases ha with rfl | rfl
      · exact .inl rfl
      · rcases keyText_eq e with ⟨hnil, -⟩ | hsome
        · exact .inl hnil
        · exact .inr hsome
    · have hequals := strNChrW_eq_none h (hbody 0x3D rfl (by decide)) (hbody 0 rfl (by decide))
      rw [← hnEnd] at hequals
      exact stripEntry_of hfind rfl hpath hequals
    · have hequals : strNChrW t k 0x3D (w ++ [0x3D] ++ e.body).length =
          some (some (k + w.length)) := by
        rw [List.append_assoc, List.append_assoc] at h
        refine strNChrW_eq_some h (hw.notMem rfl) (hw.notMem rfl) (by decide) ?_
        simp only [List.length_append, List.length_singleton]
        omega
      rw [← hnEnd] at hequals
      have hlength : (w ++ [(0x3D : WChar)]).length = w.length + 1 := List.length_append
      rw [stripEntry_of hfind rfl hpath hequals, hlength]
      rfl

/-- What is in front of the host ends with a separator. -/
theorem exists_before (h : textAt t k = some (e.text ++ post)) :
    e.keyText ++ e.schemeText = [] ∨ ∃ j ch x,
      k + (e.keyText ++ e.schemeText).length = j + 1 ∧ textAt t j = some (ch :: x) ∧
        isSeparator ch = true := by
  have hlast : ∀ w ch, isSeparator ch = true → e.keyText ++ e.schemeText = w ++ [ch] →
      ∃ j ch x, k + (e.keyText ++ e.schemeText).length = j + 1 ∧ textAt t j = some (ch :: x) ∧
        isSeparator ch = true := by
    intro w ch hsep heq
    refine ⟨k + w.length, ch, e.body ++ post, ?_, textAt_add ?_, hsep⟩
    · rw [heq, List.length_append, List.length_singleton, Nat.add_assoc]
    · rw [h, Entry.text, ← List.append_assoc, heq]
      simp
  cases hscheme : e.scheme with
  | some p =>
    refine .inr (hlast (e.keyText ++ (p.text ++ wide ":/")) 0x2F rfl ?_)
    rw [Entry.schemeText, hscheme, List.append_assoc, List.append_assoc]
    rfl
  | none =>
    have hs : e.schemeText = [] := by
      rw [Entry.schemeText, hscheme]
      rfl
    rw [hs, List.append_nil] at hlast ⊢
    rcases keyText_eq e with ⟨hnil, -⟩ | ⟨w, -, heq⟩
    · exact .inl hnil
    · exact .inr (hlast w 0x3D rfl heq)

end Search

/-! ### The host and its port -/

namespace Entry

variable (e : Entry)

/-- What is left behind the host when the blanks at the end are skipped. -/
def tail : List WChar := e.port.elim [] fun p => e.host.after ++ 0x3A :: (p.before ++ p.digits)

/-- The blanks at the end. -/
def trailing : List WChar := e.port.elim e.host.after Port.after

theorem body_eq : e.body = e.host.before ++ (e.host.name ++ e.tail) ++ e.trailing := by
  rw [body, portText, tail, trailing]
  cases e.port with
  | none => simp
  | some p => simp

theorem isBlanks_trailing : IsBlanks e.trailing := by
  rw [trailing]
  cases e.port with
  | none => exact e.host.after_blank
  | some p => exact p.after_blank

theorem core_ne_nil : e.host.before ++ (e.host.name ++ e.tail) ≠ [] :=
  List.append_ne_nil_of_right_ne_nil _ (List.append_ne_nil_of_left_ne_nil e.host.ne_nil _)

theorem last_core : isBlank ((e.host.before ++ (e.host.name ++ e.tail)).getLast e.core_ne_nil) =
    false := by
  rw [List.getLast_append_of_ne_nil _ (List.append_ne_nil_of_left_ne_nil e.host.ne_nil _)]
  cases hport : e.port with
  | none =>
    have htail : e.tail = [] := by
      rw [tail, hport]
      rfl
    simp only [htail, List.append_nil]
    exact e.host.last_not_blank
  | some p =>
    have htail : e.tail = e.host.after ++ 0x3A :: p.before ++ p.digits := by
      rw [tail, hport]
      simp
    simp only [htail, ← List.append_assoc]
    rw [List.getLast_append_of_ne_nil _ p.ne_nil]
    exact isBlank_of_isDigit (p.isDigit _ (List.getLast_mem _))

end Entry

section Address

variable {t s : List WChar} {k : Nat} {e : Entry}

theorem isBlank_of_isSeparator {ch : WChar} (h : isSeparator ch = true) : isBlank ch = false := by
  refine Bool.eq_false_iff.mpr fun hblank => ?_
  rw [isSeparator_of_isBlank hblank] at h
  cases h

theorem head_of_cutAddress {ch : WChar} (h : textAt t k = some (ch :: s)) {nEnd nPort nPort' : Nat}
    {w : List WChar} (heq : cutAddress t k nEnd nPort' = (true, w, nPort)) : ∃ x, w = ch :: x := by
  rw [cutAddress] at heq
  split at heq
  · cases heq
  · rename_i hlt
    obtain ⟨n, hn⟩ : ∃ n, nEnd - k = n + 1 := ⟨nEnd - k - 1, by omega⟩
    have hdelete : deleteStr t 0 k = ch :: s := by
      rw [deleteStr, List.take_zero, List.nil_append, Nat.zero_add, drop_of_textAt h]
    rw [hdelete, hn] at heq
    exact ⟨_, ((Prod.mk.inj (Prod.mk.inj heq).2).1).symm⟩

/-- The string begins where the address does. -/
theorem head_of_splitAddress {ch : WChar} (h : textAt t k = some (ch :: s)) {nEnd nPort : Nat}
    {w : List WChar} (heq : splitAddress t k nEnd = some (true, w, nPort)) : ∃ x, w = ch :: x := by
  rw [splitAddress] at heq
  obtain ⟨colon, -, heq⟩ := Option.bind_eq_some_iff.mp heq
  cases colon with
  | none => exact head_of_cutAddress h (Option.some.inj heq)
  | some j =>
    obtain ⟨⟨bValid, nPort'⟩, -, heq⟩ := Option.bind_eq_some_iff.mp heq
    cases bValid with
    | true => exact head_of_cutAddress h (Option.some.inj heq)
    | false => cases heq

/-- **The host and the port of an entry without blanks in front of the host.** -/
theorem splitAddress_iff (h : textAt t k = some (e.host.name ++ (e.tail ++ s))) :
    splitAddress t k (k + (e.host.name ++ e.tail).length) =
        some (true, e.host.name, e.portNumber) ↔
      ∀ p ∈ e.port, e.host.after = [] ∧ p.before = [] := by
  rw [splitAddress, Nat.add_sub_cancel_left]
  cases hport : e.port with
  | none =>
    have htail : e.tail = [] := by
      rw [Entry.tail, hport]
      rfl
    have hnumber : e.portNumber = 8080 := by
      rw [Entry.portNumber, hport]
      rfl
    rw [htail, List.nil_append] at h
    rw [htail, List.append_nil, hnumber,
      strNRevChrW_eq_none h (e.host.free.notMem rfl) (e.host.free.notMem rfl)]
    change some (cutAddress t k (k + e.host.name.length) 8080) = _ ↔ _
    rw [cutAddress_of h e.host.ne_nil]
    exact iff_of_true rfl nofun
  | some p =>
    have htail : e.tail = e.host.after ++ 0x3A :: (p.before ++ p.digits) := by
      rw [Entry.tail, hport]
      rfl
    have hnumber : e.portNumber = portValue 0 p.digits := by
      rw [Entry.portNumber, hport]
      rfl
    have hfree : IsFree (p.before ++ p.digits) := p.before_blank.isFree.append p.isFree_digits
    have hsplit : textAt t k =
        some ((e.host.name ++ e.host.after) ++ 0x3A :: ((p.before ++ p.digits) ++ s)) := by
      rw [h, htail]
      simp
    have hlength : (e.host.name ++ e.tail).length =
        (e.host.name ++ e.host.after).length + 1 + (p.before ++ p.digits).length := by
      rw [htail, ← List.append_assoc, List.length_append, List.length_cons, Nat.add_assoc,
        Nat.add_comm 1]
    have hport' := textAt_add hsplit
    have hdigits := @textAt_add t [0x3A] _ _ hport'
    have hcount : k + (e.host.name ++ e.tail).length -
        (k + (e.host.name ++ e.host.after).length + 1) = (p.before ++ p.digits).length := by
      omega
    rw [hlength, strNRevChrW_eq_some hsplit (hfree.notMem rfl) (hfree.notMem rfl) (by decide),
      ← hlength]
    change (readPort t (k + (e.host.name ++ e.tail).length -
      (k + (e.host.name ++ e.host.after).length + 1))
      (k + (e.host.name ++ e.host.after).length + 1) 0 >>= _) = _ ↔ _
    rw [hcount, hnumber]
    cases hbefore : p.before with
    | nil =>
      rw [hbefore, List.nil_append] at hdigits
      rw [List.nil_append]
      have hread := readPort_of p.isDigit p.le_max hdigits
      have hcut : cutAddress t k (k + (e.host.name ++ e.host.after).length) (portValue 0 p.digits) =
          (true, e.host.name ++ e.host.after, portValue 0 p.digits) :=
        cutAddress_of hsplit (List.append_ne_nil_of_left_ne_nil e.host.ne_nil _) _
      rw [show readPort t p.digits.length (k + (e.host.name ++ e.host.after).length + 1) 0 =
        some (true, portValue 0 p.digits) from hread]
      change some (cutAddress t k _ (portValue 0 p.digits)) = _ ↔ _
      rw [hcut]
      constructor
      · intro heq q hq
        obtain rfl := Option.mem_some_iff.mp hq
        have hname := (Prod.mk.inj (Prod.mk.inj (Option.some.inj heq)).2).1
        exact ⟨List.append_right_eq_self.mp hname, hbefore⟩
      · intro htight
        rw [(htight p rfl).1, List.append_nil]
    | cons ch b =>
      have hblank : isBlank ch = true := p.before_blank ch (hbefore ▸ List.mem_cons_self)
      rw [hbefore] at hdigits
      have hread := readPort_blank hblank hdigits (b ++ p.digits).length 0
      rw [show readPort t (ch :: b ++ p.digits).length
        (k + (e.host.name ++ e.host.after).length + 1) 0 = some (false, 0) from hread]
      refine iff_of_false nofun fun htight => ?_
      have hnil := (htight p rfl).2
      rw [hbefore] at hnil
      cases hnil

end Address

/-! ### The setting -/

theorem isName_wantedScheme (target : Option TargetUrl) :
    ∀ ch ∈ wantedScheme target, isNameChar ch = true := by
  cases target with
  | none => exact List.all_eq_true.mp (show (wide "http").all isNameChar = true by decide)
  | some u =>
    rw [wantedScheme]
    split_ifs
    · exact List.all_eq_true.mp (show (wide "http").all isNameChar = true by decide)
    · exact List.all_eq_true.mp (show (wide "https").all isNameChar = true by decide)
    · exact u.isName

/-- The scheme of the URL is found. -/
theorem targetScheme_eq (target : Option TargetUrl) :
    targetScheme (target.map TargetUrl.text) = some (wantedScheme target) := by
  cases target with
  | none => rfl
  | some u =>
    have hfree : IsFree u.name := fun ch hch => isSeparator_of_isNameChar (u.isName ch hch)
    have hnz : ∀ ch ∈ u.name, ch ≠ 0 := ne_zero_of_isName u.isName
    have hfirst : (charAt u.text 0 == 0) = false := by
      obtain ⟨ch, w, hcons⟩ := List.exists_cons_of_ne_nil u.ne_nil
      rw [TargetUrl.text, hcons]
      exact beq_eq_false_iff_ne.mpr (hnz ch (hcons ▸ List.mem_cons_self))
    have hlen : strLenW u.text 0 = some (szStr u.text).length := by
      rw [strLenW, textAt_zero, Option.map_some]
    have hlong : u.name.length + 3 ≤ (szStr u.text).length := by
      have hthree : (wide "://").length = 3 := rfl
      rw [TargetUrl.text, ← List.append_assoc, szStr, List.takeWhile_append_of_pos,
        List.length_append, List.length_append]
      · omega
      · refine List.forall_mem_append.mpr ⟨fun ch hch => bne_iff_ne.mpr (hnz ch hch), ?_⟩
        exact List.all_eq_true.mp (by decide)
    have hfind := strNFindW_scheme_eq_some (textAt_zero u.text) (hfree.notMem rfl)
      (hfree.notMem rfl) hlong
    have hprefix : ∀ word : List WChar, (∀ ch ∈ word, ch ≠ 0) → u.name.length = word.length →
        (strNCompareW u.text word word.length false = true ↔ u.name = word) := by
      intro word hword hsame
      rw [strNCompareW_iff hword, TargetUrl.text]
      constructor
      · intro hpre
        exact (List.prefix_of_prefix_length_le hpre (List.prefix_append _ _)
          (Nat.le_of_eq hsame.symm)).eq_of_length hsame.symm |>.symm
      · rintro rfl
        exact List.prefix_append _ _
    rw [Nat.zero_add] at hfind
    rw [Option.map_some, targetScheme]
    change (if (charAt u.text 0 == 0) = true then _ else _) = _
    rw [hfirst, if_neg Bool.false_ne_true, hlen]
    change (strNFindW u.text 0 (wide "://") (szStr u.text).length >>= _) = _
    rw [hfind]
    change (if u.name.length = 2 ∧ strNCompareW u.text (wide "ws") 2 false = true then _
      else if u.name.length = 3 ∧ strNCompareW u.text (wide "wss") 3 false = true then _
      else if u.name.length = 0 then _ else some (u.text.take u.name.length)) = _
    rw [wantedScheme]
    have hcompare := hprefix (wide "ws") (List.all_iff_forall_prop.mp (by decide))
    have hcompare' := hprefix (wide "wss") (List.all_iff_forall_prop.mp (by decide))
    by_cases hws : u.name = wide "ws"
    · have hlen : u.name.length = 2 := by
        rw [hws]
        rfl
      rw [if_pos ⟨hlen, (hcompare hlen).mpr hws⟩, if_pos hws]
    rw [if_neg fun h => hws ((hcompare h.1).mp h.2), if_neg hws]
    by_cases hwss : u.name = wide "wss"
    · have hlen : u.name.length = 3 := by
        rw [hwss]
        rfl
      rw [if_pos ⟨hlen, (hcompare' hlen).mpr hwss⟩, if_pos hwss]
    rw [if_neg fun h => hwss ((hcompare' h.1).mp h.2), if_neg hwss,
      if_neg fun h => u.ne_nil (List.length_eq_zero_iff.mp h), TargetUrl.text, List.take_left]

/-- **The host and port of the entry for the scheme are found exactly where it is tight.** -/
theorem selects_iff (l : Setting) (target : Option TargetUrl) :
    Selects l target ↔ (l.select (wantedScheme target)).IsTight := by
  obtain ⟨found, k, post, hfound, htext, hpost, hzero, hstart⟩ :=
    findEntry_select l (isName_wantedScheme target)
  rw [Selects, isValidProxyValue, targetScheme_eq]
  change (findEntry l.text (wantedScheme target) (l.text.length + 1) 0 >>= _) = _ ↔ _
  rw [hfound]
  generalize l.select (wantedScheme target) = e at htext hstart ⊢
  generalize l.text = t at htext ⊢
  -- the search ends in front of the key, or behind it
  obtain ⟨a, ha, hfront, hlength⟩ : ∃ a, IsFront e a ∧
      textAt t (found.getD 0) = some (a ++ (e.schemeText ++ (e.body ++ post))) ∧
      found.getD 0 + (a ++ e.schemeText).length = k + (e.keyText ++ e.schemeText).length := by
    rw [Entry.text, List.append_assoc, List.append_assoc] at htext
    rcases hstart with ⟨rfl, -⟩ | ⟨rfl, rfl⟩
    · refine ⟨[], .inl rfl, textAt_add htext, ?_⟩
      rw [Option.getD_some, List.nil_append, List.length_append, Nat.add_assoc]
    · exact ⟨e.keyText, .inr rfl, htext, rfl⟩
  have hmem : ∀ ch, ch ∈ a ++ (e.schemeText ++ e.body) → ch ∈ e.text := by
    intro ch hch
    rcases ha with rfl | rfl
    · exact List.mem_append_right _ hch
    · exact hch
  have hend : entryEnd t (found.getD 0) =
      some (found.getD 0 + (a ++ (e.schemeText ++ e.body)).length) := by
    refine entryEnd_eq (by rw [hfront]; simp) (fun h => e.notMem_text.1 (hmem _ h)) ?_ hpost
    intro h
    rcases List.mem_append.mp h with h | h
    · exact e.notMem_text.2 (hmem _ h)
    · exact hzero h
  have hbody : textAt t (found.getD 0 + (a ++ e.schemeText).length) = some (e.body ++ post) :=
    textAt_add (by rwa [List.append_assoc])
  have hbodyEnd : found.getD 0 + (a ++ (e.schemeText ++ e.body)).length =
      found.getD 0 + (a ++ e.schemeText).length +
        (e.host.before ++ (e.host.name ++ e.tail)).length + e.trailing.length := by
    rw [← List.append_assoc, List.length_append, e.body_eq]
    simp only [List.length_append]
    omega
  change (entryEnd t (found.getD 0) >>= _) = _ ↔ _
  rw [hend]
  change (stripEntry t (found.getD 0) _ >>= _) = _ ↔ _
  rw [stripEntry_eq ha hfront, hbodyEnd]
  rw [hlength] at hbody ⊢
  rw [e.body_eq, List.append_assoc] at hbody
  change (skipAtEnd t (k + (e.keyText ++ e.schemeText).length) _ >>= _) = _ ↔ _
  rw [skipAtEnd_of e.core_ne_nil e.last_core e.isBlanks_trailing hbody]
  change (skipAtStart t _ _ >>= _) = _ ↔ _
  rw [Entry.IsTight]
  cases hbefore : e.host.before with
  | nil =>
    rw [hbefore, List.nil_append, List.append_assoc] at hbody
    obtain ⟨ch, w, hcons⟩ := List.exists_cons_of_ne_nil e.host.ne_nil
    have hblank := e.host.head_not_blank
    simp only [hcons, List.head_cons] at hblank
    have hfirst := hbody
    rw [hcons, List.cons_append] at hfirst
    have hpos : 0 < (e.host.name ++ e.tail).length := by
      rw [hcons, List.cons_append, List.length_cons]
      omega
    rw [List.nil_append, skipAtStart_of hfirst hblank (Nat.lt_add_of_pos_right hpos)]
    change splitAddress t _ _ = _ ↔ _
    rw [splitAddress_iff hbody, and_iff_right rfl]
  | cons ch b =>
    have hblank : isBlank ch = true := e.host.before_blank ch (hbefore ▸ List.mem_cons_self)
    rw [hbefore] at hbody
    refine iff_of_false (fun heq => ?_) (fun htight => by cases htight.1)
    have hlong : 0 < (ch :: b ++ (e.host.name ++ e.tail)).length := Nat.succ_pos _
    rcases exists_before htext with hnil | ⟨j, sep, x, hj, hread, hsep⟩
    · -- nothing is in front of the blanks
      have hzero' : k + (e.keyText ++ e.schemeText).length = 0 := by
        rcases hstart with ⟨-, hkey⟩ | ⟨-, rfl⟩
        · rcases keyText_eq e with ⟨-, hnone⟩ | ⟨w, -, hw⟩
          · exact absurd hnone hkey
          · rw [hw] at hnil
            cases w <;> cases hnil
        · rw [hnil]
          rfl
      rw [hzero'] at hbody heq
      rw [skipAtStart_zero hbody hblank (by omega)] at heq
      cases heq
    · -- the separator stays in the string
      rw [hj] at hbody heq
      rw [skipAtStart_succ hbody hblank (by omega),
        skipAtStart_of hread (isBlank_of_isSeparator hsep) (by omega)] at heq
      obtain ⟨w, hw⟩ := head_of_splitAddress hread heq
      exact e.host.free.notMem hsep (hw ▸ List.mem_cons_self)

/-- ` proxy` -/
def blankSetting : Setting where
  first :=
    { key := none
      scheme := none
      host := ⟨[0x20], wide "proxy", [], by decide, by decide, by decide, by decide, by decide,
        by decide⟩
      port := none }
  rest := []

/-- The loop reads in front of the string. -/
theorem not_selects_blank : ¬ Selects blankSetting none := by
  have hread : isValidProxyValue blankSetting.text none = none := by decide
  intro hselects
  cases hread.symm.trans hselects

end MxLib.Comm.Proxy
