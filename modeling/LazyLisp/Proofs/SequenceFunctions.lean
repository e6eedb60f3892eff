import LazyLisp.Proofs.Folding
import LazyLisp.Proofs.LazyFunctions
import LazyLisp.Proofs.Looping

/-!
The library's functions on sequences do to a collection what the functions on lists do to the list of
its elements. The lazy ones look at no more of the collection than they give.
-/

namespace LazyLisp
set_option autoImplicit false

namespace Evaluation
open Library

section
variable {α : Type}

/-- The call gives the values of a function on the elements. -/
def Maps (R : World → World → Prop) (ends : Bool) (w : World) (map c : Value) (item : α → Item R)
    (xs : List α) : Prop :=
  ∀ f (image : α → Item R), (∀ id, f ≠ .transformer id) →
    (∀ x ∈ xs, Answers R w f (item x) (image x)) → Delivers R ends w map [f, c] (xs.map image)

/-- What the library's functions give for a collection with these elements. The elements that
`filter` and `reverse` bind to a symbol must not be macros, for those cannot be read. -/
structure ListResults (R : World → World → Prop) (w : World) (fn : Entry → Value) (c : Value)
    (item : α → Item R) (xs : List α) : Prop where
  map : Maps R true w (fn .map) c item xs
  filter : ∀ p (keep : α → Bool), (∀ id, p ≠ .transformer id) →
    (∀ x ∈ xs, (item x).Readable ∧ Answers R w p (item x) (.truth (keep x))) →
    Delivers R true w (fn .filter) [p, c] ((xs.filter keep).map item)
  take : ∀ n : Int64, Delivers R true w (fn .take) [.int n, c] ((xs.take n.toInt.toNat).map item)
  drop : ∀ n : Int64, Delivers R true w (fn .drop) [.int n, c] ((xs.drop n.toInt.toNat).map item)
  reverse : (∀ x ∈ xs, (item x).Readable) →
    Delivers R true w (fn .reverse) [c] (xs.reverse.map item)
  last : ∃ y v, (∀ scope, ComesTo (calls scope (fn .last) [c]) w (.ok y v)) ∧ R w v ∧
    ((xs.getLast?.map item).getD (.exactly .nil)).holds v y
  into : ∀ front, ∃ ys v, (∀ scope, ComesTo (calls scope (fn .into) [.vector front, c]) w
    (.ok (.vector (front ++ ys)) v)) ∧ R w v ∧ Item.AllHold v (xs.map item) ys

/-- What the lazy functions give for a collection that begins with these elements. Of `take` it is
known that it ends if it asks for no more. -/
structure FrontResults (R : World → World → Prop) (w : World) (fn : Entry → Value) (c : Value)
    (item : α → Item R) (xs : List α) : Prop where
  map : Maps R false w (fn .map) c item xs
  take : ∀ n : Int64, Delivers R (decide (n.toInt.toNat ≤ xs.length)) w (fn .take) [.int n, c]
    ((xs.take n.toInt.toNat).map item)

end

variable {R : World → World → Prop} {w v : World} {fn : Entry → Value} {c : Value} {s : Seq}
  {ends shown : Bool} {α : Type} {item : α → Item R} {xs : List α}

theorem function_of_ready (hw : w.Ready) (hfn : ∀ e : Entry, w.global? (.plain e.name) = some (fn e))
    (e : Entry) (hkind : e.isMacro = false) :
    ∃ id, fn e = .function id ∧ w.closures[id]? = some e.closure := by
  obtain ⟨id, hid, hclosure⟩ := hw.stocked.entry e e.mem_all
  refine ⟨id, ?_, hclosure⟩
  rw [← Option.some.inj (hid.symm.trans (hfn e)), Entry.value, hkind]
  rfl

section
variable (hR : Harmless R) (hw : w.Ready)
  (hfn : ∀ e : Entry, w.global? (.plain e.name) = some (fn e)) (hs : c.toSeq? = some s)
include hR hw hfn hs

theorem map_maps (hoffers : s.Offers R ends (xs.map item) w) :
    Maps R ends w (fn .map) c item xs := by
  intro f image hf hanswers
  obtain ⟨id, hid, hclosure⟩ := function_of_ready hw hfn .map rfl
  rw [hid]
  exact (map_transforms hR item hf image).delivers hR hw.stocked hw.attached hclosure hs hoffers
    ⟨rfl, xs, rfl, rfl, hanswers⟩

theorem take_takes (hoffers : s.Offers R ends (xs.map item) w) (n : Int64)
    (hlength : shown = true → ends = true ∨ n.toInt.toNat ≤ xs.length) :
    Delivers R shown w (fn .take) [.int n, c] ((xs.take n.toInt.toNat).map item) := by
  obtain ⟨id, hid, hclosure⟩ := function_of_ready hw hfn .take rfl
  rw [hid]
  refine (take_transforms hR).delivers hR hw.stocked hw.attached hclosure hs hoffers
    ⟨n, rfl, fun hshown => ?_, List.map_take⟩
  rw [List.length_map]
  exact hlength hshown

theorem listResults (hoffers : s.Offers R true (xs.map item) w) :
    ListResults R w fn c item xs where
  map := map_maps hR hw hfn hs hoffers
  filter p keep hp hanswers := by
    obtain ⟨id, hid, hclosure⟩ := function_of_ready hw hfn .filter rfl
    rw [hid]
    exact (filter_transforms hR item hp keep).delivers hR hw.stocked hw.attached hclosure hs hoffers
      ⟨rfl, xs, rfl, rfl, hanswers⟩
  take n := take_takes hR hw hfn hs hoffers n fun _ => .inl rfl
  drop n := by
    obtain ⟨id, hid, hclosure⟩ := function_of_ready hw hfn .drop rfl
    rw [hid, List.map_drop]
    exact drop_delivers hR hw hclosure hs hoffers n
  reverse hreadable := by
    obtain ⟨id, hid, hclosure⟩ := function_of_ready hw hfn .reverse rfl
    obtain ⟨ys, v, hcalls, hwv, hys⟩ :=
      reverse_gives hR hw hclosure hs hoffers (List.forall_mem_map.2 hreadable)
    rw [hid]
    have hoffers : (Seq.ofList ys.reverse).Offers R true (xs.map item).reverse v :=
      ((Seq.Fixed.ofList _).holds v).offers hR (List.forall₂_reverse_iff.2 hys)
    have hrenews := hoffers.renews hR hwv
    rw [List.map_reverse]
    exact ⟨_, _, v, hcalls, hwv, rfl, hrenews.shows, hrenews⟩
  last := by
    obtain ⟨id, hid, hclosure⟩ := function_of_ready hw hfn .last rfl
    obtain ⟨y, v, hcalls, hwv, hlast⟩ := last_gives hR hw hclosure hs hoffers
    rw [lastItem, List.getLast?_map] at hlast
    rw [hid]
    exact ⟨y, v, hcalls, hwv, hlast⟩
  into front := by
    obtain ⟨id, hid, hclosure⟩ := function_of_ready hw hfn .into rfl
    rw [hid]
    exact into_gives hR hw hclosure hs hoffers front

theorem frontResults (hoffers : s.Offers R false (xs.map item) w) :
    FrontResults R w fn c item xs where
  map := map_maps hR hw hfn hs hoffers
  take n := take_takes hR hw hfn hs hoffers n fun hshown => .inr (of_decide_eq_true hshown)

end

/-- On a collection that offers elements and then ends, the library's functions give what the
functions on lists make of the elements. Of a collection that begins with elements, whatever is
behind them, `map` and `take` give what they make of these. -/
theorem sequence_functions_agree_with_lists (hR : Harmless R) (hw : w.Ready)
    (hfn : ∀ e : Entry, w.global? (.plain e.name) = some (fn e)) (hs : c.toSeq? = some s)
    (item : α → Item R) (xs : List α) :
    (s.Offers R true (xs.map item) w → ListResults R w fn c item xs) ∧
      (s.Offers R false (xs.map item) w → FrontResults R w fn c item xs) :=
  ⟨listResults hR hw hfn hs, frontResults hR hw hfn hs⟩

theorem isInt_answers (w : World) (x : Value) {b : Item Works}
    (hb : ∀ v, b.holds v (.bool (Core.isOfType .isInt x))) :
    Answers Works w (.builtin .isInt) (.exactly x) b := by
  rintro v - _ rfl
  exact ⟨_, v, fun scope => .always (.ok _ v) fun _ => rfl, .refl v, hb v⟩

/-- What a call leaves in the state is a state in which the library can be used. -/
theorem ready_of_calls (hR : Harmless R) (hw : w.Ready) (hwv : R w v) {f y : Value}
    {args : List Value} (h : ∀ scope, ComesTo (calls scope f args) w (.ok y v)) : v.Ready where
  attached := (kept_of_calls (h none)).attached.trans hw.attached
  stocked := hR.stocked hwv hw.stocked
  wellScoped := by
    obtain ⟨-, n, hn⟩ := comesTo_applications (h none)
    have hrun : run n (.apply none f args) w = .ok (.value y) v := hn n (Nat.le_refl n)
    exact (after_ok hrun ▸ run_scoped n (.apply none f args) hw.wellScoped nofun).wellFormed

/-- In a new interpreter, which elements of `[1 nil 2]` are integers: of the cells that `map` makes,
`into` makes a vector. -/
theorem sequence_functions_agree_with_lists_ints : ∃ (w : World) (fn : Entry → Value),
    Interpreter.start (.ofBudget 60) {} = .ok w ∧
    (∀ e : Entry, w.global? (.plain e.name) = some (fn e)) ∧
    Delivers Works true w (fn .filter) [.builtin .isInt, .vector [.int 1, .nil, .int 2]]
      [.exactly (.int 1), .exactly (.int 2)] ∧
    ∃ y v u, (∀ scope, ComesTo (calls scope (fn .map)
        [.builtin .isInt, .vector [.int 1, .nil, .int 2]]) w (.ok y v)) ∧
      ∀ scope, ComesTo (calls scope (fn .into) [.vector [], y]) v
        (.ok (.vector [.bool true, .bool false, .bool true]) u) := by
  obtain ⟨w, hstart, -⟩ := Interpreter.samples_reached
  have hready := Interpreter.started_ready rfl hstart
  choose id hid _ using fun e : Entry => hready.stocked.entry e e.mem_all
  have hoffers : Seq.Offers Works true ([.int 1, .nil, .int 2].map .exactly) w
      (.vectorView [.int 1, .nil, .int 2] 0) :=
    (Seq.Holds.vectorView w _ 0).offers works_harmless ((Item.allHold_exactly w _ _).2 rfl)
  have hlists := (sequence_functions_agree_with_lists works_harmless hready hid
    (c := .vector [.int 1, .nil, .int 2]) rfl .exactly [.int 1, .nil, .int 2]).1 hoffers
  have hreadable : ∀ x ∈ [Value.int 1, .nil, .int 2], (Item.exactly (R := Works) x).Readable := by
    rintro x hx w y rfl id rfl
    simp at hx
  have hfilter := hlists.filter (.builtin .isInt) (Core.isOfType .isInt) nofun fun x hx =>
    ⟨hreadable x hx, isInt_answers w x fun _ => rfl⟩
  -- what `map` gives is a collection in turn
  obtain ⟨y, t, v, hy, hwv, ht, -, R', again, hR', -, hholds, hagain⟩ := hlists.map (.builtin .isInt)
    (fun x => .exactly (.bool (Core.isOfType .isInt x))) nofun fun x _ =>
      isInt_answers w x fun _ => rfl
  have hcells := (sequence_functions_agree_with_lists hR' (ready_of_calls works_harmless hready hwv hy)
    (fun e => (hwv.global? _).trans (hid e)) ht again _).1 hagain
  obtain ⟨xs, u, hu, -, hxs⟩ := hcells.into []
  have hxs : Item.AllHold u ([true, false, true].map fun b => Item.exactly (R := Works) (.bool b)) xs :=
    (List.forall₂_map_left_iff.1 hxs).imp fun a x => hholds a u x
  obtain rfl := (Item.allHold_exactly u [.bool true, .bool false, .bool true] xs).1 hxs
  exact ⟨w, _, hstart, hid, hfilter, y, v, u, hy, hu⟩

/-- In a new interpreter `(list (deref #'when))` has one element, but `reverse` fails on it: the
element is a macro and cannot be read where it is bound. -/
theorem reverse_fails_on_macro : ∃ w, Interpreter.start (.ofBudget 60) {} = .ok w ∧
    (∃ v, Session.evalSource (.ofBudget 60) "(count (list (deref #'when)))" w = .ok (.int 1) v) ∧
    ∃ v, Session.evalSource (.ofBudget 60) "(count (reverse (list (deref #'when))))" w =
      .error (.eval (.macroAsValue "when")) v := by
  obtain ⟨w, hstart, hsamples⟩ := Interpreter.samples_reached
  simp only [Interpreter.samples, List.forall_mem_cons] at hsamples
  obtain ⟨v, hv, -⟩ := Interpreter.Ending.value_of_isReached hsamples.2.2.1
  exact ⟨w, hstart, ⟨v, hv⟩, Interpreter.Ending.error_of_isReached hsamples.2.2.2.1⟩

end Evaluation
end LazyLisp
