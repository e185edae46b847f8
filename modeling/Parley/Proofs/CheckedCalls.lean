import Parley.Proofs.HostOrder
import Parley.Proofs.NativeForms
import Mathlib.Data.List.Basic

/-! # Calls of checked functions

What the signature of a host function says of script values: how many there may be (`Signature.Fits`), what a
parameter allows (`Expected.Allows`) and what host code gets for it (`Expected.delivered`). The check runs on native
values, where a number may have become an integer; it comes to the same (`accepts_toNative`, `coerce_toNative`). So host
code is called once with what it may see, or not at all. -/

namespace Parley
variable {σ μ : Type}

namespace Expected

/-- The script value may go to a parameter of which this is expected. -/
inductive Allows : Expected → Value → Prop
  | unchecked (v : Value) : Allows .unchecked v
  | boolean (b : Bool) : Allows .boolean (.boolean b)
  | integer {x : Binary64} {n : Int} (hx : x.toInt? = some n) : Allows .integer (.number x)
  | real (x : Binary64) : Allows .real (.number x)
  | string (s : String) : Allows .string (.string s)
  | nothing : Allows .nothing .null
  | union {label : String} {options : List Expected} {e : Expected} {v : Value} (he : e ∈ options) (hv : e.Allows v) :
    Allows (.union label options) v

/-- What the parameter gets for the value: its native form, but a number stays a number where one is expected. -/
def delivered : Expected → Value → Native
  | .real, .number x => .real x.plainZero
  | _, v => v.toNative

/-- The value goes to the host in this form: a number as an integer if it is whole. -/
inductive Form : Value → Native → Prop
  | whole {x : Binary64} {n : Int} (hx : x.toInt? = some n) : Form (.number x) (.integer n)
  | fraction {x : Binary64} (hx : x.toInt? = none) : Form (.number x) (.real x)
  | string (t : String) : Form (.string t) (.string t)
  | boolean (b : Bool) : Form (.boolean b) (.boolean b)
  | null : Form .null .none

theorem form_toNative (v : Value) : Form v v.toNative := by
  cases v with
  | number x =>
    rw [Value.toNative]
    cases hx : x.toInt? with
    | some n => exact .whole hx
    | none => exact .fraction hx
  | string t => exact .string t
  | boolean b => exact .boolean b
  | null => exact .null

mutual

theorem accepts_iff_allows : ∀ (e : Expected) {v : Value} {n : Native}, Form v n → (e.accepts n = true ↔ e.Allows v)
  | .unchecked, v, _, _ => iff_of_true rfl (.unchecked v)
  | .boolean, _, _, h => by
    cases h with
    | boolean b => exact iff_of_true rfl (.boolean b)
    | _ => exact iff_of_false Bool.false_ne_true nofun
  | .integer, _, _, h => by
    cases h with
    | whole hx => exact iff_of_true rfl (.integer hx)
    | fraction hx =>
      refine iff_of_false Bool.false_ne_true fun h => ?_
      cases h with
      | integer hx' => exact Option.some_ne_none _ (hx'.symm.trans hx)
    | _ => exact iff_of_false Bool.false_ne_true nofun
  | .real, _, _, h => by
    cases h with
    | whole | fraction => exact iff_of_true rfl (.real _)
    | _ => exact iff_of_false Bool.false_ne_true nofun
  | .string, _, _, h => by
    cases h with
    | string t => exact iff_of_true rfl (.string t)
    | _ => exact iff_of_false Bool.false_ne_true nofun
  | .nothing, _, _, h => by
    cases h with
    | null => exact iff_of_true rfl .nothing
    | _ => exact iff_of_false Bool.false_ne_true nofun
  | .union label options, _, _, h => by
    rw [accepts, anyAccepts_iff_allows options h]
    refine ⟨fun ⟨e, he, hv⟩ => .union he hv, fun h => ?_⟩
    cases h with
    | union he hv => exact ⟨_, he, hv⟩

theorem anyAccepts_iff_allows : ∀ (options : List Expected) {v : Value} {n : Native}, Form v n →
    (anyAccepts options n = true ↔ ∃ e ∈ options, e.Allows v)
  | [], _, _, _ => by simp [anyAccepts]
  | e :: rest, _, _, h => by
    rw [anyAccepts, Bool.or_eq_true, accepts_iff_allows e h, anyAccepts_iff_allows rest h]
    simp

end

theorem coerce_toNative (e : Expected) (v : Value) : e.coerce v.toNative = e.delivered v := by
  cases e with
  | real =>
    have h := form_toNative v
    generalize v.toNative = n at h
    cases h with
    | whole hx => rw [delivered, coerce, Binary64.ofInt?_of_toInt? hx]
    | fraction hx => rw [delivered, coerce, Binary64.plainZero_of_toInt?_eq_none hx]; nofun
    | _ => rfl
  | _ => rfl

end Expected

namespace Signature
variable (s : Signature)

/-- So many arguments may be given: those that are missing have defaults, and those left over have a parameter. -/
structure Fits (n : Nat) : Prop where
  enough : ∀ p ∈ s.params.drop n, p.default ≠ none
  room : s.variadic = none → n ≤ s.params.length

/-- The parameter to which the argument at this index goes. -/
def paramAt? (i : Nat) : Option Param := s.params[i]?.or s.variadic

/-- The arguments fit, and each is allowed by its parameter. -/
structure Admits (args : List Value) : Prop where
  fits : s.Fits args.length
  allowed : ∀ {i : Nat} {v : Value} {p : Param}, args[i]? = some v → s.paramAt? i = some p → p.expected.Allows v

/-- What host code gets for the arguments: each in the form that its parameter wants, then the defaults of the
parameters that are left. -/
def passed (args : List Value) : List Native :=
  (args.mapIdx fun i v =>
    match s.paramAt? i with
    | some p => p.expected.delivered v
    | none => v.toNative) ++ (s.params.drop args.length).filterMap Param.default

/-- Every argument with its parameter. -/
def pairs (args : List Native) : List (Param × Native) :=
  s.params.zip args ++ (s.variadic.toList.flatMap fun p => (args.drop s.params.length).map fun v => (p, v))

variable {s}

theorem bind_of_fits {args : List Native} (h : s.Fits args.length) : s.bind args = .ok (s.pairs args) := by
  have hnone : (s.params.drop args.length).find? (fun p => p.default.isNone) = none := by
    simpa [List.find?_eq_none] using h.enough
  unfold bind pairs
  simp only [hnone]
  cases hv : s.variadic with
  | some p => simp
  | none => simp [h.room hv]

theorem bind_of_not_fits {args : List Native} (h : ¬ s.Fits args.length) : ∃ reason, s.bind args = .error reason := by
  unfold bind
  split
  · exact ⟨_, rfl⟩
  · next hnone =>
    have henough : ∀ p ∈ s.params.drop args.length, p.default ≠ none := by simpa [List.find?_eq_none] using hnone
    split
    · next hv => exact absurd ⟨henough, fun hv' => by simp [hv] at hv'⟩ h
    · next hv =>
      have hroom : ¬ args.length ≤ s.params.length := fun hroom => h ⟨henough, fun _ => hroom⟩
      exact ⟨_, if_neg (by simpa using hroom)⟩

theorem getElem?_pairs (args : List Native) (i : Nat) :
    (s.pairs args)[i]? = (s.paramAt? i).bind fun p => args[i]?.map fun v => (p, v) := by
  obtain ⟨params, variadic⟩ := s
  unfold pairs paramAt?
  dsimp only
  induction params generalizing args i with
  | nil => cases variadic <;> simp
  | cons p params ih =>
    cases args with
    | nil => cases variadic <;> simp
    | cons v args =>
      cases i with
      | zero => simp
      | succ i => simpa using ih args i

theorem getElem?_pairs_iff {args : List Native} {i : Nat} {p : Param} {v : Native} :
    (s.pairs args)[i]? = some (p, v) ↔ s.paramAt? i = some p ∧ args[i]? = some v := by
  rw [getElem?_pairs]
  cases s.paramAt? i <;> cases args[i]? <;> simp

/-- No argument is refused exactly if the signature admits all. -/
theorem refused?_eq_none_iff {args : List Value} (h : s.Fits args.length) :
    refused? (s.pairs (args.map Value.toNative)) = none ↔ s.Admits args := by
  have hall : refused? (s.pairs (args.map Value.toNative)) = none ↔
      ∀ i p n, s.paramAt? i = some p → (args.map Value.toNative)[i]? = some n → p.expected.accepts n = true := by
    simp only [refused?, List.find?_eq_none, List.mem_iff_getElem?, Prod.forall, Bool.not_eq_true', Bool.not_eq_false]
    exact ⟨fun hall i p n hp hn => hall p n ⟨i, getElem?_pairs_iff.mpr ⟨hp, hn⟩⟩, fun hall p n ⟨i, hpn⟩ =>
      have ⟨hp, hn⟩ := getElem?_pairs_iff.mp hpn
      hall i p n hp hn⟩
  rw [hall]
  refine ⟨fun hall => ⟨h, fun {i v p} hv hp => ?_⟩, fun hadmits i p n hp hn => ?_⟩
  · have hn : (args.map Value.toNative)[i]? = some v.toNative := by rw [List.getElem?_map, hv]; rfl
    exact (Expected.accepts_iff_allows _ (Expected.form_toNative v)).mp (hall i p _ hp hn)
  · obtain ⟨v, hv, rfl⟩ : ∃ v, args[i]? = some v ∧ v.toNative = n := by simpa [List.getElem?_map] using hn
    exact (Expected.accepts_iff_allows _ (Expected.form_toNative v)).mpr (hadmits.allowed hv hp)

/-- With as many arguments as fit, each has a parameter. -/
theorem Fits.exists_param {n : Nat} (h : s.Fits n) {i : Nat} (hi : i < n) : ∃ p, s.paramAt? i = some p := by
  unfold paramAt?
  cases hv : s.variadic with
  | some q => exact ⟨s.params[i]?.getD q, by cases s.params[i]? <;> rfl⟩
  | none =>
    have hroom := h.room hv
    exact ⟨s.params[i], by simp [List.getElem?_eq_getElem (show i < s.params.length by omega)]⟩

theorem received_eq_passed {args : List Value} (h : s.Fits args.length) :
    s.received (args.map Value.toNative) (s.pairs (args.map Value.toNative)) = s.passed args := by
  have hdefaults : s.defaults (args.map Value.toNative) = (s.params.drop args.length).filterMap Param.default := by
    rw [defaults, List.length_map, ← List.filterMap_eq_map]
    refine List.filterMap_congr fun p hp => ?_
    obtain ⟨d, hd⟩ := Option.ne_none_iff_exists'.mp (h.enough p hp)
    simp [hd]
  rw [received, hdefaults, passed]
  congr 1
  refine List.ext_getElem? fun i => ?_
  rw [List.getElem?_map, getElem?_pairs, List.getElem?_map, List.getElem?_mapIdx]
  cases hi : args[i]? with
  | none => simp
  | some v =>
    obtain ⟨p, hp⟩ := h.exists_param (List.getElem?_eq_some_iff.mp hi).1
    simp [hp, Expected.coerce_toNative]

end Signature

namespace Play

theorem callChecked_of_admits (host : Host σ μ) (name : String) {s : Signature} (code : Handle) {args : List Value}
    (h : s.Admits args) (w : World σ μ) :
    callChecked host name s code (args.map Value.toNative) w =
      (do convert (← host.call code (s.passed args))) (w.noting (.called name code (s.passed args))) := by
  have hfits : s.Fits (args.map Value.toNative).length := by simpa using h.fits
  unfold callChecked
  rw [Signature.bind_of_fits hfits]
  dsimp only
  rw [(Signature.refused?_eq_none_iff h.fits).mpr h]
  dsimp only
  rw [Signature.received_eq_passed h.fits]
  rfl

theorem callChecked_of_not_admits (name : String) {s : Signature} {args : List Value} (h : ¬ s.Admits args)
    (w : World σ μ) :
    ∃ t record, ∀ (host : Host σ μ) (code : Handle),
      callChecked host name s code (args.map Value.toNative) w = .error (.type t) (w.noting (.logged record)) := by
  unfold callChecked
  by_cases hfits : s.Fits (args.map Value.toNative).length
  · rw [Signature.bind_of_fits hfits]
    dsimp only
    cases hrefused : refused? (s.pairs (args.map Value.toNative)) with
    | some pair => exact ⟨_, _, fun _ _ => rfl⟩
    | none => exact absurd ((Signature.refused?_eq_none_iff (by simpa using hfits)).mp hrefused) h
  · obtain ⟨reason, hreason⟩ := Signature.bind_of_not_fits hfits
    rw [hreason]
    exact ⟨_, _, fun _ _ => rfl⟩

end Play

/-- A function that may be given a name, a number and any more numbers; without the number it is told so. -/
def tally : Signature where
  params := [⟨"name", .union "Optional" [.string, .nothing], none⟩, ⟨"bonus", .real, some (.string "unset")⟩]
  variadic := some ⟨"more", .real, none⟩

end Parley
