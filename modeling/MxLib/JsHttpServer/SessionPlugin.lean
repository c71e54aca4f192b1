import Mathlib.Data.List.Induction
import MxLib.PropertyBag

/-!
# Sessions

`CJsHttpServerSessionPlugin`, as far as it keeps the properties of a session and hands them to the
persistence callback.  Every branch of the setter sets `bDirty` by itself; the one of the booleans
returns before it does.  So a run keeps its changes if and only if no boolean gets into the bag
while the flag is down (`keeps_iff`).

The callback reads the bag and does not change it.
-/

namespace MxLib.JsHttpServer

open MxLib.PropertyBag

/-- What a script assigns.  A number is the 64 bits it is stored in. -/
inductive JsValue
  | undefined
  | null
  | boolean (b : Bool)
  | number (nValue : UInt64)
  | string (szValueA : List Byte)
  | other
deriving DecidableEq, Repr

/-- The members of the plugin that a property or a save touches, and what the callback has stored
last, which is what the session was set up with at first. -/
structure SessionPlugin where
  cBag : Bag
  bDirty : Bool
  saved : List Property

namespace SessionPlugin

/-- After `Setup`. -/
def setup (cBag : Bag) : SessionPlugin := ⟨cBag, false, cBag.lpItems⟩

/-- The name is that of the id, which a script cannot change. -/
def isId (szPropNameA : List Byte) : Bool :=
  charAt szPropNameA 0 == 0x69 && charAt szPropNameA 1 == 0x64 && charAt szPropNameA 2 == 0

/-- `1.0` and `0.0` -/
def booleanValue (b : Bool) : UInt64 := if b then 0x3FF0000000000000 else 0

/-- `OnProxySetNamedProperty`: what it returns, and the plugin. -/
def onProxySetNamedProperty (s : SessionPlugin) (szPropNameA : List Byte) (v : JsValue)
    (mem : Memory) : Int × SessionPlugin :=
  if isId szPropNameA then (-1, s)
  else
    match v with
    | .undefined =>
      let (_, cBag) := clear s.cBag szPropNameA
      (0, { s with cBag, bDirty := true })
    | .null =>
      let (hRes, cBag) := setNull s.cBag szPropNameA mem
      if hRes.succeeded then (0, { s with cBag, bDirty := true }) else (-1, { s with cBag })
    | .boolean b =>
      -- what is behind the `return` is never reached
      let (hRes, cBag) := setDouble s.cBag szPropNameA (booleanValue b) mem
      (if hRes.succeeded then 0 else -1, { s with cBag })
    | .number nValue =>
      let (hRes, cBag) := setDouble s.cBag szPropNameA nValue mem
      if hRes.succeeded then (0, { s with cBag, bDirty := true }) else (-1, { s with cBag })
    | .string szValueA =>
      let (hRes, cBag) := setString s.cBag szPropNameA szValueA mem
      if hRes.succeeded then (0, { s with cBag, bDirty := true }) else (-1, { s with cBag })
    | .other => (-1, s)

/-- `OnProxyDeleteNamedProperty` -/
def onProxyDeleteNamedProperty (s : SessionPlugin) (szPropNameA : List Byte) :
    Int × SessionPlugin :=
  if isId szPropNameA then (-1, s)
  else
    let (hRes, cBag) := clear s.cBag szPropNameA
    if hRes.succeeded then (1, { s with cBag, bDirty := true }) else (1, { s with cBag })

/-- `Save`, which the destructor calls too; `cPersistanceCallback` is what the callback returns, if
there is one. -/
def save (s : SessionPlugin) (cPersistanceCallback : Option HResult) : HResult × SessionPlugin :=
  match cPersistanceCallback with
  | none => (.sOk, s)
  | some hRes =>
    if s.bDirty = false then (.sOk, s)
    else if hRes.succeeded then (hRes, { s with bDirty := false, saved := s.cBag.lpItems })
    else (hRes, s)

/-- A call on a plugin with a callback. -/
inductive Call
  | set (szPropNameA : List Byte) (v : JsValue) (mem : Memory)
  | delete (szPropNameA : List Byte)
  | save (hRes : HResult)

def step (s : SessionPlugin) : Call → SessionPlugin
  | .set szPropNameA v mem => (s.onProxySetNamedProperty szPropNameA v mem).2
  | .delete szPropNameA => (s.onProxyDeleteNamedProperty szPropNameA).2
  | .save hRes => (s.save (some hRes)).2

def run (s : SessionPlugin) (calls : List Call) : SessionPlugin := calls.foldl step s

/-- A bag that is not what was stored last is flagged, and the next save stores it. -/
def Kept (s : SessionPlugin) : Prop :=
  s.cBag.lpItems ≠ s.saved → s.bDirty = true ∧ (s.save (some .sOk)).2.saved = s.cBag.lpItems

/-- While the flag is down, a boolean gets into the bag that has not been there. -/
def Unflagged (s : SessionPlugin) : Call → Prop
  | .set szPropNameA (.boolean b) mem =>
    s.bDirty = false ∧ isId szPropNameA = false ∧
      Stores s.cBag ⟨szPropNameA, .double (booleanValue b)⟩ mem
  | _ => False

variable {s : SessionPlugin}

theorem kept_iff : Kept s ↔ (s.bDirty = false → s.cBag.lpItems = s.saved) := by
  unfold Kept save
  cases hdirty : s.bDirty with
  | true => simp [HResult.succeeded]
  | false => simp

theorem kept_of_dirty (h : s.bDirty = true) : Kept s :=
  kept_iff.mpr fun hclean => by rw [h] at hclean; cases hclean

/-- A branch that sets the flag when the property is stored. -/
theorem kept_store (hs : Kept s) (p : Property) (mem : Memory) :
    Kept (if (store s.cBag p mem).1.succeeded then
        (0, { s with cBag := (store s.cBag p mem).2, bDirty := true })
      else ((-1 : Int), { s with cBag := (store s.cBag p mem).2 })).2 := by
  by_cases hdone : (store s.cBag p mem).1.succeeded = true
  · rw [if_pos hdone]
    exact kept_of_dirty rfl
  · have hfailed : (store s.cBag p mem).1.failed = true := by
      simpa [HResult.failed] using hdone
    rw [if_neg hdone, store_of_failed hfailed]
    exact hs

/-- The branch of the booleans. -/
theorem kept_boolean (hs : Kept s) (p : Property) (mem : Memory) :
    Kept { s with cBag := (store s.cBag p mem).2 } ↔
      ¬ (s.bDirty = false ∧ Stores s.cBag p mem) := by
  rw [kept_iff, ← store_changes_iff]
  constructor
  · rintro h ⟨hclean, hchanged⟩
    exact hchanged ((h hclean).trans (kept_iff.mp hs hclean).symm)
  · intro h hclean
    have hsame : (store s.cBag p mem).2.lpItems = s.cBag.lpItems := by
      by_contra hchanged
      exact h ⟨hclean, hchanged⟩
    exact hsame.trans (kept_iff.mp hs hclean)

theorem kept_delete (hs : Kept s) (szPropNameA : List Byte) :
    Kept (s.onProxyDeleteNamedProperty szPropNameA).2 := by
  unfold onProxyDeleteNamedProperty
  by_cases hid : isId szPropNameA = true
  · rw [if_pos hid]
    exact hs
  rw [if_neg hid]
  by_cases hdone : (clear s.cBag szPropNameA).1.succeeded = true
  · simp only [hdone]
    exact kept_of_dirty rfl
  · have hfailed : (clear s.cBag szPropNameA).1.failed = true := by
      simpa [HResult.failed] using hdone
    simp only [hdone, clear_of_failed hfailed]
    exact hs

theorem kept_save (hs : Kept s) (hRes : HResult) : Kept (s.save (some hRes)).2 := by
  unfold save
  by_cases hclean : s.bDirty = false
  · simp only [hclean, if_true]
    exact hs
  · simp only [if_neg hclean]
    split
    · exact kept_iff.mpr fun _ => rfl
    · exact hs

/-- **One call keeps the changes** just when no boolean gets into the bag while the flag is
down. -/
theorem kept_step_iff (hs : Kept s) (call : Call) :
    Kept (step s call) ↔ ¬ Unflagged s call := by
  cases call with
  | delete szPropNameA => exact iff_of_true (kept_delete hs szPropNameA) id
  | save hRes => exact iff_of_true (kept_save hs hRes) id
  | set szPropNameA v mem =>
      show Kept (s.onProxySetNamedProperty szPropNameA v mem).2 ↔ _
      unfold onProxySetNamedProperty
      by_cases hid : isId szPropNameA = true
      · rw [if_pos hid]
        refine iff_of_true hs fun h => ?_
        cases v <;> simp [Unflagged, hid] at h
      rw [if_neg hid]
      cases v with
      | undefined => exact iff_of_true (kept_of_dirty rfl) id
      | null => exact iff_of_true (kept_store hs _ mem) id
      | number nValue => exact iff_of_true (kept_store hs _ mem) id
      | string szValueA => exact iff_of_true (kept_store hs _ mem) id
      | other => exact iff_of_true hs id
      | boolean b =>
          have hiff := kept_boolean hs ⟨szPropNameA, .double (booleanValue b)⟩ mem
          simpa [Unflagged, hid, setDouble] using hiff

theorem run_append_singleton (calls : List Call) (call : Call) :
    run s (calls ++ [call]) = step (run s calls) call := by
  rw [run, List.foldl_append]
  rfl

/-- **Changes are kept along a run if and only if no call of it puts a boolean into the bag while
the flag is down.** -/
theorem keeps_iff (cBag : Bag) (calls : List Call) :
    (∀ pre, pre <+: calls → Kept (run (setup cBag) pre)) ↔
      ∀ pre call, pre ++ [call] <+: calls → ¬ Unflagged (run (setup cBag) pre) call := by
  constructor
  · intro hkept pre call hpre
    have hbefore := hkept pre ((List.prefix_append pre [call]).trans hpre)
    have hafter := hkept _ hpre
    rw [run_append_singleton] at hafter
    exact (kept_step_iff hbefore call).mp hafter
  · intro hflagged pre
    induction pre using List.reverseRecOn with
    | nil => exact fun _ => kept_iff.mpr fun _ => rfl
    | append_singleton pre call ih =>
        intro hpre
        have hbefore := ih ((List.prefix_append pre [call]).trans hpre)
        rw [run_append_singleton]
        exact (kept_step_iff hbefore call).mpr (hflagged pre call hpre)

/-- A script sets a property of a new session to `true`. -/
theorem not_kept_true : ¬ ∀ pre, pre <+: [Call.set (ascii "a") (.boolean true) ⟨true, true⟩] →
    Kept (run (setup ArrayList.empty) pre) := by
  intro h
  have hkept := kept_iff.mp (h _ (List.prefix_refl _)) rfl
  have hitems : (run (setup ArrayList.empty)
      [Call.set (ascii "a") (.boolean true) ⟨true, true⟩]).cBag.lpItems =
        [⟨[0x61], .double 0x3FF0000000000000⟩] := by rfl
  rw [hitems] at hkept
  cases hkept

end SessionPlugin

end MxLib.JsHttpServer
