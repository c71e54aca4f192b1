import MxLib.Http.UrlRoundTrip
import MxLib.Library.Cells

/-!
# Setters and getters of a URL

A URL is a state with seven cells, one for each component.  The wide setters write their
own cell and no other one, with two exceptions: `SetUserInfo` stores a text that is not
empty as the fragment, and `SetHost` puts brackets around an IPv6 address that has them.

`GetQueryStringValue` compares one character of the names, where the whole names were
meant: the flag for the case is given where the length is expected.
-/

namespace MxLib.Http

open HostResolver
open MxLib.Library.Cells
open MxLib.Library.Stream

/-! ### Getters -/

def Url.getScheme (url : Url) : List WChar := szStr url.cStrSchemeW

def Url.getHost (url : Url) : List WChar := szStr url.cStrHostW

def Url.getPort (url : Url) : Int :=
  match url.nPort with
  | none => -1
  | some nPort => nPort

def Url.getQueryStringCount (url : Url) : Nat := url.cQueryStringsList.length

def Url.getQueryStringName (url : Url) (nIndex : Nat) : Option (List WChar) :=
  (url.cQueryStringsList[nIndex]?).map fun item => szStr item.1

def Url.getQueryStringValue (url : Url) (nIndex : Nat) : Option (List WChar) :=
  (url.cQueryStringsList[nIndex]?).map fun item => szStr item.2

/-- `GetQueryStringValue(szNameW)`: `TRUE` is the length that `StrNCompareW` gets. -/
def Url.getQueryStringValueOf (url : Url) (szNameW : List WChar) : Option (List WChar) :=
  if charAt szNameW 0 != 0 then
    (url.cQueryStringsList.find? fun item => strNCompareW item.1 szNameW 1 false).map
      fun item => szStr item.2
  else none

def Url.getFragment (url : Url) : List WChar := szStr url.cStrFragmentW

def Url.getUserInfo (url : Url) : List WChar := szStr url.cStrUserInfoW

/-! ### The cells of a URL -/

inductive Component
  | scheme | host | port | path | queryStrings | fragment | userInfo
deriving DecidableEq

/-- What the getters of a component tell. -/
inductive Reading
  | text (szStrW : List WChar)
  | port (nPort : Int)
  | queryStrings (nCount : Nat) (name value : Nat → Option (List WChar))

/-- The readings of a list of items. -/
def readItems (items : List (List WChar × List WChar)) : Reading :=
  .queryStrings items.length (fun nIndex => (items[nIndex]?).map fun item => szStr item.1)
    fun nIndex => (items[nIndex]?).map fun item => szStr item.2

def Url.get (url : Url) : Component → Reading
  | .scheme => .text url.getScheme
  | .host => .text url.getHost
  | .port => .port url.getPort
  | .path => .text url.getPath
  | .queryStrings =>
    .queryStrings url.getQueryStringCount url.getQueryStringName url.getQueryStringValue
  | .fragment => .text url.getFragment
  | .userInfo => .text url.getUserInfo

/-- The wide setters of the components. -/
inductive WideCall
  | setScheme (szSchemeW : List WChar)
  | setHost (szHostW : List WChar)
  | setPort (nPort : Int)
  | setPath (szPathW : List WChar)
  | addQueryString (szNameW szValueW : List WChar)
  | removeQueryString (nIndex : Nat)
  | setFragment (szFragmentW : List WChar)
  | setUserInfo (szUserInfoW : List WChar)

namespace WideCall

def setter : WideCall → Setter
  | setScheme s => .schemeW s
  | setHost s => .hostW s
  | setPort n => .port n
  | setPath s => .pathW s
  | addQueryString name value => .addQueryStringW name value
  | removeQueryString nIndex => .removeQueryString nIndex
  | setFragment s => .fragmentW s
  | setUserInfo s => .userInfoW s

/-- The component that a setter is for. -/
def component : WideCall → Component
  | setScheme _ => .scheme
  | setHost _ => .host
  | setPort _ => .port
  | setPath _ => .path
  | addQueryString _ _ => .queryStrings
  | removeQueryString _ => .queryStrings
  | setFragment _ => .fragment
  | setUserInfo _ => .userInfo

end WideCall

/-- The URL behind a call of a wide setter. -/
def Url.call (url : Url) (c : WideCall) : Except HResult Url := url.set c.setter

/-! ### What the components are meant to hold -/

/-- A host as it is meant to be stored: an IPv6 address without brackets is put in them. -/
def bracketedHost (szHostW : List WChar) : List WChar :=
  if charAt szHostW 0 != 0x5B && !isValidIPV4 szHostW && isValidIPV6 true szHostW szHostW.length then
    [0x5B] ++ szHostW ++ [0x5D]
  else szHostW

/-- The value that a call gives to its component: the scheme in lower case, the host in
brackets where it has to be, and the path without its dots, for the scheme of the URL. -/
def WideCall.given (url : Url) : WideCall → Reading
  | setScheme s => .text ((szStr s).map lowerW)
  | setHost s => .text (szStr (bracketedHost s))
  | setPort n => .port n
  | setPath s => .text (szStr (setPathW s url.cStrSchemeW))
  | addQueryString name value => readItems (url.cQueryStringsList ++ [(name, value)])
  | removeQueryString nIndex => readItems (url.cQueryStringsList.eraseIdx nIndex)
  | setFragment s => .text (szStr s)
  | setUserInfo s => .text (szStr s)

/-- Each getter tells what the last call for its component gave. -/
structure Independent (url : Url) (calls : List WideCall) (url' : Url) : Prop where
  unset : ∀ component, (∀ c ∈ calls, c.component ≠ component) →
    url'.get component = url.get component
  last : ∀ pre c post, calls = pre ++ c :: post → (∀ d ∈ post, d.component ≠ c.component) →
    ∃ url'', feed Url.call url pre = .ok url'' ∧ url'.get c.component = c.given url''

/-- The whole names are equal, but for the case. -/
def sameName (szNameW : List WChar) (item : List WChar × List WChar) : Bool :=
  (szStr item.1).map lowerW == (szStr szNameW).map lowerW

/-- The value of the first item of that name. -/
def firstValue (items : List (List WChar × List WChar)) (szNameW : List WChar) :
    Option (List WChar) :=
  (items.find? (sameName szNameW)).map fun item => szStr item.2

/-! ### When they do -/

/-- The setter writes the component it is for: not where a user info is set, or a host that
is an IPv6 address in brackets. -/
def WideCall.Keeps : WideCall → Prop
  | setHost s => ¬(charAt s 0 = 0x5B ∧ isValidIPV6 true s s.length = true)
  | setUserInfo s => s = []
  | _ => True

/-- The name of the item begins with the first character of this one. -/
def sameFirst (szNameW : List WChar) (item : List WChar × List WChar) : Bool :=
  charAt item.1 0 == charAt szNameW 0

/-- The first item with the name, or with a name that begins with the same character, is
of both kinds; or the first one of the other kind has the same value. -/
def FirstHasName (items : List (List WChar × List WChar)) (szNameW : List WChar) : Prop :=
  match items.find? fun item => sameFirst szNameW item || sameName szNameW item with
  | none => True
  | some item =>
    charAt szNameW 0 ≠ 0 ∧
      (sameFirst szNameW item = true ∧ sameName szNameW item = true ∨
        sameFirst szNameW item = true ∧ (∃ other, items.find? (sameName szNameW) = some other ∧
          szStr other.2 = szStr item.2) ∨
        sameName szNameW item = true ∧ ∃ other, items.find? (sameFirst szNameW) = some other ∧
          szStr other.2 = szStr item.2)

/-! ### The setters -/

theorem setSchemeW_eq {szSchemeW v : List WChar} (h : setSchemeW szSchemeW = .ok v) :
    v = (szStr szSchemeW).map lowerW := by
  rw [setSchemeW] at h
  cases hs : szStr szSchemeW with
  | nil =>
    rw [hs] at h
    exact (Except.ok.inj h).symm
  | cons chW sW =>
    rw [hs] at h
    dsimp only at h
    split at h
    · exact (Except.ok.inj h).symm
    · cases h

theorem setHostW_eq {szHostW v : List WChar} (hkeeps : (WideCall.setHost szHostW).Keeps)
    (h : setHostW szHostW = .ok v) : v = bracketedHost szHostW := by
  rw [setHostW] at h
  by_cases hnil : szHostW = []
  · rw [if_pos hnil] at h
    subst hnil
    exact (Except.ok.inj h).symm
  · rw [if_neg hnil, validateHostAddress, if_neg hnil] at h
    rw [bracketedHost]
    by_cases h4 : isValidIPV4 szHostW = true
    · rw [if_pos h4] at h
      rw [if_neg (by simp [h4])]
      exact (Except.ok.inj h).symm
    · rw [if_neg h4] at h
      by_cases h6 : isValidIPV6 true szHostW szHostW.length = true
      · have hopen : charAt szHostW 0 ≠ 0x5B := fun h0 => hkeeps ⟨h0, h6⟩
        rw [if_pos h6] at h
        rw [if_pos (by simp [hopen, h4, h6])]
        exact (Except.ok.inj h).symm
      · rw [if_neg h6] at h
        rw [if_neg (by simp [h6])]
        split at h
        · exact (Except.ok.inj h).symm
        · split at h
          · cases h
          · split at h
            · cases h
            · exact (Except.ok.inj h).symm

theorem getPort_setPort {url : Url} {nPort : Int} {v : Option Nat} (h : setPort nPort = .ok v) :
    ({ url with nPort := v } : Url).getPort = nPort := by
  rw [setPort] at h
  split at h
  · next hnone =>
    obtain rfl := Except.ok.inj h
    exact hnone.symm
  · split at h
    · cases h
    · next hrange =>
      obtain rfl := Except.ok.inj h
      change (nPort.toNat : Int) = nPort
      omega

/-! A URL as its cells: one of them has the new value, the others are what they were. -/

theorem get_withScheme (url : Url) (v : List WChar) :
    ({ url with cStrSchemeW := v } : Url).get =
      Function.update url.get .scheme (.text (szStr v)) := by
  funext k
  cases k <;> rfl

theorem get_withHost (url : Url) (v : List WChar) :
    ({ url with cStrHostW := v } : Url).get = Function.update url.get .host (.text (szStr v)) := by
  funext k
  cases k <;> rfl

theorem get_withPort {url : Url} {nPort : Int} {v : Option Nat} (h : setPort nPort = .ok v) :
    ({ url with nPort := v } : Url).get = Function.update url.get .port (.port nPort) := by
  rw [← @getPort_setPort url nPort v h]
  funext k
  cases k <;> rfl

theorem get_withPath (url : Url) (v : List WChar) :
    ({ url with cStrPathW := v } : Url).get = Function.update url.get .path (.text (szStr v)) := by
  funext k
  cases k <;> rfl

theorem get_withQueryStrings (url : Url) (v : List (List WChar × List WChar)) :
    ({ url with cQueryStringsList := v } : Url).get =
      Function.update url.get .queryStrings (readItems v) := by
  funext k
  cases k <;> rfl

theorem get_withFragment (url : Url) (v : List WChar) :
    ({ url with cStrFragmentW := v } : Url).get =
      Function.update url.get .fragment (.text (szStr v)) := by
  funext k
  cases k <;> rfl

theorem get_withUserInfo (url : Url) (v : List WChar) :
    ({ url with cStrUserInfoW := v } : Url).get =
      Function.update url.get .userInfo (.text (szStr v)) := by
  funext k
  cases k <;> rfl

/-- **A setter writes the component that it is for**, and no other one. -/
theorem writes_of_keeps {c : WideCall} (hc : c.Keeps) :
    Writes Url.call Url.get WideCall.component WideCall.given c := by
  intro url url' h
  cases c with
  | setScheme s =>
    obtain ⟨v, hv, rfl⟩ := exists_of_map_ok h
    have hzero : 0 ∉ v := (setSchemeW_stored hv).2
    rw [get_withScheme, szStr_of_ne_zero fun ch hch h0 => hzero (h0 ▸ hch), setSchemeW_eq hv]
    rfl
  | setHost s =>
    obtain ⟨v, hv, rfl⟩ := exists_of_map_ok h
    rw [get_withHost, setHostW_eq hc hv]
    rfl
  | setPort n =>
    obtain ⟨v, hv, rfl⟩ := exists_of_map_ok h
    exact get_withPort hv
  | setPath s =>
    obtain rfl := Except.ok.inj h
    exact get_withPath url _
  | addQueryString name value =>
    rw [Url.call, WideCall.setter, Url.set] at h
    split at h
    · cases h
    · obtain rfl := Except.ok.inj h
      exact get_withQueryStrings url _
  | removeQueryString nIndex =>
    rw [Url.call, WideCall.setter, Url.set] at h
    split at h
    · cases h
    · obtain rfl := Except.ok.inj h
      exact get_withQueryStrings url _
  | setFragment s =>
    obtain rfl := Except.ok.inj h
    exact get_withFragment url _
  | setUserInfo s =>
    have hnil : s = [] := hc
    subst hnil
    obtain rfl := Except.ok.inj h
    exact get_withUserInfo url []

/-! ### The item of a name -/

theorem take_one_szStr (szStrW : List WChar) :
    (szStr szStrW).take 1 = if charAt szStrW 0 = 0 then [] else [charAt szStrW 0] := by
  cases szStrW with
  | nil => rfl
  | cons chW sW =>
    rw [charAt_cons_zero, szStr, List.takeWhile_cons]
    by_cases h : chW = 0
    · simp [h]
    · simp [h]

/-- With a length of one, `StrNCompareW` compares the first characters. -/
theorem strNCompareW_one {szNameW : List WChar} (hname : charAt szNameW 0 ≠ 0)
    (item : List WChar × List WChar) :
    strNCompareW item.1 szNameW 1 false = sameFirst szNameW item := by
  change ((szStr item.1).take 1 == (szStr szNameW).take 1) = (charAt item.1 0 == charAt szNameW 0)
  rw [take_one_szStr, take_one_szStr, if_neg hname]
  by_cases hitem : charAt item.1 0 = 0
  · rw [if_pos hitem, hitem]
    exact (beq_eq_false_iff_ne.mpr fun h0 => hname h0.symm).symm
  · rw [if_neg hitem, Bool.eq_iff_iff, beq_iff_eq, beq_iff_eq, List.singleton_inj]

/-- Of two searches, the one that finds the first item that either finds. -/
theorem find?_or {α : Type} (p q : α → Bool) {l : List α} {a : α}
    (h : l.find? (fun x => p x || q x) = some a) (hp : p a = true) : l.find? p = some a := by
  obtain ⟨-, pre, post, rfl, hpre⟩ := List.find?_eq_some_iff_append.mp h
  refine List.find?_eq_some_iff_append.mpr ⟨hp, pre, post, rfl, fun x hx => ?_⟩
  have hnone := hpre x hx
  simp only [Bool.not_eq_true', Bool.or_eq_false_iff] at hnone
  rw [hnone.1]
  rfl

theorem find?_or_none {α : Type} (p q : α → Bool) {l : List α}
    (h : l.find? (fun x => p x || q x) = none) : l.find? p = none := by
  rw [List.find?_eq_none] at h ⊢
  intro x hx hp
  exact h x hx (by simp [hp])

/-- The value of a search is that of an item. -/
theorem map_value_eq_some {o : Option (List WChar × List WChar)} {vW : List WChar} :
    some vW = o.map (fun item => szStr item.2) ↔ ∃ other, o = some other ∧ szStr other.2 = vW := by
  rw [eq_comm, Option.map_eq_some_iff]

/-- An item whose name begins with a zero has the empty name. -/
theorem sameName_of_sameFirst {szNameW : List WChar} {item : List WChar × List WChar}
    (hname : charAt szNameW 0 = 0) (h : sameFirst szNameW item = true) :
    sameName szNameW item = true := by
  have hnil : ∀ sW : List WChar, charAt sW 0 = 0 → szStr sW = [] := by
    intro sW h0
    cases sW with
    | nil => rfl
    | cons chW sW =>
      rw [charAt_cons_zero] at h0
      rw [h0]
      rfl
  rw [sameFirst, hname, beq_iff_eq] at h
  rw [sameName, hnil szNameW hname, hnil item.1 h]
  rfl

/-- **`GetQueryStringValue` finds the item of that name** where the first item with the name,
or with its first character, is the right one. -/
theorem getQueryStringValueOf_iff (url : Url) (szNameW : List WChar) :
    url.getQueryStringValueOf szNameW = firstValue url.cQueryStringsList szNameW ↔
      FirstHasName url.cQueryStringsList szNameW := by
  rw [Url.getQueryStringValueOf, firstValue, FirstHasName]
  generalize url.cQueryStringsList = items
  have hswap : (items.find? fun item => sameName szNameW item || sameFirst szNameW item) =
      items.find? fun item => sameFirst szNameW item || sameName szNameW item :=
    congrArg (items.find? ·) (funext fun item => Bool.or_comm _ _)
  cases hfind : items.find? fun item => sameFirst szNameW item || sameName szNameW item with
  | none =>
    have hN : items.find? (sameName szNameW) = none := find?_or_none _ _ (hswap.trans hfind)
    have hF : items.find? (sameFirst szNameW) = none := find?_or_none _ _ hfind
    refine iff_of_true ?_ trivial
    rw [hN]
    split
    · next h0 =>
      rw [funext (strNCompareW_one (by simpa using h0)), hF]
    · rfl
  | some item =>
    have heither : sameFirst szNameW item = true ∨ sameName szNameW item = true := by
      rw [← Bool.or_eq_true_iff]
      exact (List.find?_eq_some_iff_append.mp hfind).1
    have hN : sameName szNameW item = true → items.find? (sameName szNameW) = some item :=
      find?_or _ _ (hswap.trans hfind)
    have hF : sameFirst szNameW item = true → items.find? (sameFirst szNameW) = some item :=
      find?_or _ _ hfind
    dsimp only
    by_cases hname : charAt szNameW 0 = 0
    · -- there is no search for the empty name
      rw [if_neg (by simp [hname]), hN (heither.elim (sameName_of_sameFirst hname) id)]
      exact iff_of_false nofun fun h => h.1 hname
    · rw [if_pos (by simp [hname]), funext (strNCompareW_one hname), and_iff_right hname]
      by_cases hfirst : sameFirst szNameW item = true
      · rw [hF hfirst, Option.map_some, map_value_eq_some]
        by_cases hsame : sameName szNameW item = true
        · rw [hN hsame]
          exact iff_of_true ⟨item, rfl, rfl⟩ (Or.inl ⟨hfirst, hsame⟩)
        · simp [hfirst, hsame]
      · have hsame : sameName szNameW item = true := heither.resolve_left hfirst
        rw [hN hsame, Option.map_some, eq_comm, map_value_eq_some]
        simp [hfirst, hsame]

/-! ### Runs of the setters -/

/-- **Setters do not disturb each other**: in every run of wide setters that keep to their
components, each getter tells what the last call for its component gave, or what it told
before.  Behind the run, the value of a name is that of the first item with this name,
exactly where the first item with the name or with its first character is the right one. -/
theorem independent_of_keeps {url url' : Url} {calls : List WideCall}
    (hkeeps : ∀ c ∈ calls, c.Keeps) (h : feed Url.call url calls = .ok url') :
    Independent url calls url' ∧
      ∀ szNameW, url'.getQueryStringValueOf szNameW = firstValue url'.cQueryStringsList szNameW ↔
        FirstHasName url'.cQueryStringsList szNameW := by
  refine ⟨⟨fun component hne => ?_, ?_⟩, getQueryStringValueOf_iff url'⟩
  · exact read_feed_of_ne (fun c hc => writes_of_keeps (hkeeps c hc)) hne h
  · rintro pre c post rfl hpost
    apply read_feed_of_last (fun d hd => writes_of_keeps (hkeeps d ?_)) hpost h
    exact List.mem_append_right pre hd

/-- A host, an item, a path and no user info. -/
theorem independent_of_keeps_host :
    ∃ url', feed Url.call Url.reset [.setHost (wide "a.b"), .addQueryString (wide "n") (wide "v"),
        .setPath (wide "/p"), .setUserInfo []] = .ok url' ∧
      Independent Url.reset [.setHost (wide "a.b"), .addQueryString (wide "n") (wide "v"),
        .setPath (wide "/p"), .setUserInfo []] url' ∧
      ∀ szNameW, url'.getQueryStringValueOf szNameW = firstValue url'.cQueryStringsList szNameW ↔
        FirstHasName url'.cQueryStringsList szNameW := by
  have hrun : feed Url.call Url.reset [.setHost (wide "a.b"),
      .addQueryString (wide "n") (wide "v"), .setPath (wide "/p"), .setUserInfo []] =
      .ok { Url.reset with
        cStrHostW := wide "a.b", cQueryStringsList := [(wide "n", wide "v")],
        cStrPathW := wide "/p" } := by
    decide +kernel
  refine ⟨_, hrun, independent_of_keeps ?_ hrun⟩
  intro c hc
  simp only [List.mem_cons, List.not_mem_nil, or_false] at hc
  rcases hc with rfl | rfl | rfl | rfl
  · exact fun h => absurd h.1 (by decide)
  · trivial
  · trivial
  · exact rfl

/-- A user info is not told by its getter. -/
theorem not_independent_userInfo :
    ¬∀ (url url' : Url) (calls : List WideCall), feed Url.call url calls = .ok url' →
      Independent url calls url' ∧ ∀ szNameW,
        url'.getQueryStringValueOf szNameW = firstValue url'.cQueryStringsList szNameW := by
  intro hall
  obtain ⟨⟨-, hlast⟩, -⟩ := hall Url.reset { Url.reset with cStrFragmentW := wide "u" }
    [.setUserInfo (wide "u")] rfl
  obtain ⟨url'', -, hread⟩ := hlast [] (.setUserInfo (wide "u")) [] rfl nofun
  exact absurd (Reading.text.inj hread) (by decide)

end MxLib.Http
