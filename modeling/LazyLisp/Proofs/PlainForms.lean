import LazyLisp.Printer
import LazyLisp.Proofs.Comparing
import LazyLisp.Proofs.Leaves

/-!
Forms without lazy parts. Whatever is read is made of finite lists, vectors and maps, and replacing
marks keeps it so. Such a form prints within a depth that its size bounds, and printing it leaves the
state as it is.
-/

namespace LazyLisp
set_option autoImplicit false

/-- Finite lists, vectors and maps of atoms, marked or not. -/
inductive Value.Plain : Value → Prop
  | atom {v : Value} (h : v.isAtom = true) : Plain v
  | list {items : List Value} (h : ∀ v ∈ items, Plain v) : Plain (.list items)
  | vector {items : List Value} (h : ∀ v ∈ items, Plain v) : Plain (.vector items)
  | map {entries : List (Value × Value)} (hkeys : ∀ e ∈ entries, Plain e.1)
      (hvalues : ∀ e ∈ entries, Plain e.2) : Plain (.map entries)
  | marked (m : Mark) {form : Value} (h : Plain form) : Plain (.marked m form)

def AllPlain (forms : List Value) : Prop := ∀ v ∈ forms, v.Plain

def EntriesPlain (entries : List (Value × Value)) : Prop := ∀ e ∈ entries, e.1.Plain ∧ e.2.Plain

theorem AllPlain.nil : AllPlain [] := List.forall_mem_nil _

theorem EntriesPlain.nil : EntriesPlain [] := List.forall_mem_nil _

namespace Value

theorem plain_vector {items : List Value} : (Value.vector items).Plain ↔ AllPlain items := by
  refine ⟨fun h => ?_, .vector⟩
  cases h with
  | atom h => cases h
  | vector h => exact h

theorem plain_map {entries : List (Value × Value)} :
    (Value.map entries).Plain ↔ EntriesPlain entries := by
  refine ⟨fun h => ?_, fun h => .map (fun e he => (h e he).1) fun e he => (h e he).2⟩
  cases h with
  | atom h => cases h
  | map hkeys hvalues => exact fun e he => ⟨hkeys e he, hvalues e he⟩

theorem plain_marked {m : Mark} {form : Value} : (Value.marked m form).Plain ↔ form.Plain := by
  refine ⟨fun h => ?_, .marked m⟩
  cases h with
  | atom h => cases h
  | marked _ h => exact h

/-- A plain sequence is a list. -/
theorem plain_seq {s : Seq} :
    (Value.seq s).Plain ↔ ∃ items, s = Seq.ofList items ∧ AllPlain items := by
  constructor
  · intro h
    generalize hv : Value.seq s = v at h
    cases h with
    | atom h => subst hv; cases h
    | @list items h => exact ⟨items, Value.seq.inj hv, h⟩
    | _ => cases hv
  · rintro ⟨items, rfl, h⟩
    exact .list h

end Value

theorem AllPlain.cons {v : Value} {vs : List Value} (hv : v.Plain) (hvs : AllPlain vs) :
    AllPlain (v :: vs) :=
  List.forall_mem_cons.2 ⟨hv, hvs⟩

theorem EntriesPlain.putForm {entries : List (Value × Value)} {key value : Value}
    (h : EntriesPlain entries) (hkey : key.Plain) (hvalue : value.Plain) :
    EntriesPlain (Value.putForm entries key value) := by
  induction entries with
  | nil => exact List.forall_mem_cons.2 ⟨⟨hkey, hvalue⟩, EntriesPlain.nil⟩
  | cons e rest ih =>
    obtain ⟨he, hrest⟩ := List.forall_mem_cons.1 h
    rw [Value.putForm]
    split
    · exact List.forall_mem_cons.2 ⟨⟨hkey, hvalue⟩, hrest⟩
    · exact List.forall_mem_cons.2 ⟨he, ih hrest⟩

theorem AllPlain.entriesOf {items : List Value} (h : AllPlain items) :
    EntriesPlain (Value.entriesOf items) := by
  have hgo : ∀ entries, EntriesPlain entries → EntriesPlain (Value.entriesOf.go items entries) := by
    intro entries hentries
    fun_induction Value.entriesOf.go items entries with
    | case1 key value rest entries ih =>
      obtain ⟨hkey, h⟩ := List.forall_mem_cons.1 h
      obtain ⟨hvalue, hrest⟩ := List.forall_mem_cons.1 h
      exact ih hrest (hentries.putForm hkey hvalue)
    | case2 => exact hentries
  exact hgo [] .nil

theorem EntriesPlain.foldl_putForm {entries acc : List (Value × Value)} (h : EntriesPlain entries)
    (hacc : EntriesPlain acc) :
    EntriesPlain (entries.foldl (fun acc e => Value.putForm acc e.1 e.2) acc) := by
  induction entries generalizing acc with
  | nil => exact hacc
  | cons e rest ih =>
    obtain ⟨he, hrest⟩ := List.forall_mem_cons.1 h
    exact ih hrest (hacc.putForm he.1 he.2)

/-- A property of forms that holds of atoms and of what is put together of forms that have it: lists,
vectors, and maps to which the entries are added one by one. -/
structure Formed (p : Value → Prop) : Prop where
  atom : ∀ v, v.isAtom = true → p v
  seq : ∀ s, p (.seq s) ↔ ∃ items, s = Seq.ofList items ∧ ∀ v ∈ items, p v
  vector : ∀ items, p (.vector items) ↔ ∀ v ∈ items, p v
  map : ∀ entries : List (Value × Value), (∀ e ∈ entries, p e.1 ∧ p e.2) →
    p (.map (entries.foldl (fun acc e => Value.putForm acc e.1 e.2) []))
  entries : ∀ entries, p (.map entries) → ∀ e ∈ entries, p e.1 ∧ p e.2

theorem Seq.ofList_injective : Function.Injective Seq.ofList := fun xs ys h => by
  have hlists := congrArg Seq.toList? h
  rw [Seq.toList?_ofList, Seq.toList?_ofList] at hlists
  exact Option.some.inj hlists

namespace Formed
variable {p : Value → Prop} {parts : List Value}

theorem list (hp : Formed p) : p (.list parts) ↔ ∀ v ∈ parts, p v := by
  refine (hp.seq _).trans ⟨?_, fun h => ⟨parts, rfl, h⟩⟩
  rintro ⟨items, heq, h⟩
  rwa [Seq.ofList_injective heq]

theorem cons (hp : Formed p) {head : Value} {tail : Seq} :
    p (.seq (.cons head tail)) ↔ p head ∧ p (.seq tail) := by
  rw [hp.seq, hp.seq]
  constructor
  · rintro ⟨_ | ⟨v, vs⟩, heq, h⟩
    · cases heq
    · cases heq
      obtain ⟨hv, hvs⟩ := List.forall_mem_cons.1 h
      exact ⟨hv, vs, rfl, hvs⟩
  · rintro ⟨hhead, items, rfl, h⟩
    exact ⟨head :: items, rfl, List.forall_mem_cons.2 ⟨hhead, h⟩⟩

end Formed

theorem plain_formed : Formed Value.Plain where
  atom _ h := .atom h
  seq _ := Value.plain_seq
  vector _ := Value.plain_vector
  map _ h := Value.plain_map.2 (EntriesPlain.foldl_putForm h .nil)
  entries _ h := Value.plain_map.1 h

namespace Value

theorem plain_list {items : List Value} : (Value.list items).Plain ↔ AllPlain items :=
  plain_formed.list

theorem plain_cons {head : Value} {tail : Seq} :
    (Value.seq (.cons head tail)).Plain ↔ head.Plain ∧ (Value.seq tail).Plain :=
  plain_formed.cons

end Value

/-! Replacing marks. -/

namespace Formed
open Shorthand
variable {p : Value → Prop} {form : Value} {parts : List Value}

/-- A list of an atom and further forms. -/
theorem call (hp : Formed p) {head : Value} (hhead : head.isAtom = true) (h : ∀ v ∈ parts, p v) :
    p (.list (head :: parts)) :=
  hp.list.2 (List.forall_mem_cons.2 ⟨hp.atom head hhead, h⟩)

theorem call_one (hp : Formed p) {head : Value} (hhead : head.isAtom = true) (h : p form) :
    p (.list [head, form]) :=
  hp.call hhead (List.forall_mem_singleton.2 h)

theorem elements (hp : Formed p) (piece : Piece) (h : p piece.form) : p piece.elements := by
  cases piece with
  | one form => exact hp.call_one rfl h
  | spliced form => exact h

theorem quoted (hp : Formed p) (h : p form) : p (quoted form) := hp.call_one rfl h

theorem concatenation (hp : Formed p) (h : ∀ v ∈ parts, p v) : p (concatenation parts) :=
  hp.call rfl h

theorem listOf (hp : Formed p) (h : ∀ v ∈ parts, p v) : p (listOf parts) := by
  unfold Shorthand.listOf
  split
  · exact hp.call rfl (List.forall_mem_nil _)
  · exact hp.call_one rfl (hp.concatenation h)

theorem vectorOf (hp : Formed p) (h : ∀ v ∈ parts, p v) : p (vectorOf parts) :=
  hp.call_one rfl (hp.concatenation h)

theorem mapOf (hp : Formed p) (h : ∀ v ∈ parts, p v) : p (mapOf parts) :=
  hp.call rfl (List.forall_mem_cons.2
    ⟨hp.atom _ rfl, List.forall_mem_singleton.2 (hp.concatenation h)⟩)

/-- A collection with a marked form in it is written as a list of two. -/
theorem pair (hp : Formed p) {head : Value} (hhead : p head) {piece : Piece} (h : p piece.form) :
    p (Shorthand.listOf [(Piece.one head).elements, piece.elements]) :=
  hp.listOf (List.forall_mem_cons.2 ⟨hp.elements (.one head) hhead,
    List.forall_mem_singleton.2 (hp.elements piece h)⟩)

mutual

theorem plainTemplate (hp : Formed p) (v : Value) (h : p v) : Gives (plainTemplate v) p := by
  cases v with
  | symbol s => exact (Gives.any _).bind fun t _ => .pure (hp.quoted (hp.atom _ rfl))
  | special f => exact .pure (hp.quoted (hp.atom _ rfl))
  | seq s => exact (hp.plainSeq s h).bind fun _ hparts => .pure (hp.listOf hparts)
  | vector items =>
    exact (hp.plainItems items ((hp.vector items).1 h)).bind fun _ hparts =>
      .pure (hp.vectorOf hparts)
  | map entries =>
    exact (hp.plainEntries entries (hp.entries entries h)).bind fun _ hparts =>
      .pure (hp.mapOf hparts)
  | _ => exact .pure h

theorem plainSeq (hp : Formed p) (s : Seq) (h : p (.seq s)) :
    Gives (plainSeq s) fun parts => ∀ v ∈ parts, p v := by
  cases s with
  | cons head tail =>
    obtain ⟨hhead, htail⟩ := hp.cons.1 h
    refine (hp.plainTemplate head hhead).bind fun part hpart => ?_
    refine (hp.plainSeq tail htail).bind fun parts hparts => .pure ?_
    exact List.forall_mem_cons.2 ⟨hp.elements (.one part) hpart, hparts⟩
  | _ => exact .pure (List.forall_mem_nil _)

theorem plainItems (hp : Formed p) (items : List Value) (h : ∀ v ∈ items, p v) :
    Gives (plainItems items) fun parts => ∀ v ∈ parts, p v := by
  cases items with
  | nil => exact .pure (List.forall_mem_nil _)
  | cons v vs =>
    obtain ⟨hv, hvs⟩ := List.forall_mem_cons.1 h
    refine (hp.plainTemplate v hv).bind fun part hpart => ?_
    refine (hp.plainItems vs hvs).bind fun parts hparts => .pure ?_
    exact List.forall_mem_cons.2 ⟨hp.elements (.one part) hpart, hparts⟩

theorem plainEntries (hp : Formed p) (entries : List (Value × Value))
    (h : ∀ e ∈ entries, p e.1 ∧ p e.2) :
    Gives (plainEntries entries) fun parts => ∀ v ∈ parts, p v := by
  cases entries with
  | nil => exact .pure (List.forall_mem_nil _)
  | cons e rest =>
    obtain ⟨k, v⟩ := e
    obtain ⟨⟨hk, hv⟩, hrest⟩ := List.forall_mem_cons.1 h
    refine (hp.plainTemplate k hk).bind fun key hkey => ?_
    refine (hp.plainTemplate v hv).bind fun value hvalue => ?_
    refine (hp.plainEntries rest hrest).bind fun parts hparts => .pure ?_
    exact List.forall_mem_cons.2 ⟨hp.elements (.one key) hkey,
      List.forall_mem_cons.2 ⟨hp.elements (.one value) hvalue, hparts⟩⟩

end

theorem ownTemplate {α : Type} {q : α → Prop} {m : Lower α} (h : Gives m q) :
    Gives (ownTemplate m) q := by
  refine (Gives.any _).bind fun _ _ => (Gives.any _).bind fun _ _ => h.bind fun a ha => ?_
  exact (Gives.any _).bind fun _ _ => .pure ha

mutual

/-- Whatever is made of marks is formed of atoms, lists, vectors and maps. -/
theorem lower (hp : Formed p) (v : Value) (h : v.Plain) : Gives (lower v) p := by
  cases v with
  | marked m f =>
    have hf := Value.plain_marked.1 h
    cases m with
    | quote => exact (hp.lower f hf).bind fun _ hv => .pure (hp.quoted hv)
    | varQuote | deref => exact (hp.lower f hf).bind fun _ hv => .pure (hp.call_one rfl hv)
    | template =>
      exact (ownTemplate (hp.template false f hf)).bind fun _ hpiece => .pure hpiece
    | unquote | splice => exact .throw
  | seq s =>
    refine (hp.lowerSeq s h).bind fun t ht => .pure ?_
    exact ht
  | vector items =>
    exact (hp.lowerItems items (Value.plain_vector.1 h)).bind fun _ hvs =>
      .pure ((hp.vector _).2 hvs)
  | map entries =>
    exact (hp.lowerEntries entries (Value.plain_map.1 h)).bind fun _ hes => .pure (hp.map _ hes)
  | _ => exact .pure (hp.atom _ rfl)

theorem lowerSeq (hp : Formed p) (s : Seq) (h : (Value.seq s).Plain) :
    Gives (lowerSeq s) fun t => p (.seq t) := by
  cases s with
  | empty => exact .pure (hp.list.2 (List.forall_mem_nil _))
  | cons head tail =>
    obtain ⟨hhead, htail⟩ := Value.plain_cons.1 h
    refine (hp.lower head hhead).bind fun v hv => ?_
    exact (hp.lowerSeq tail htail).bind fun t ht => .pure (hp.cons.2 ⟨hv, ht⟩)
  | _ =>
    obtain ⟨items, heq, -⟩ := Value.plain_seq.1 h
    cases items <;> cases heq

theorem lowerItems (hp : Formed p) (items : List Value) (h : AllPlain items) :
    Gives (lowerItems items) fun vs => ∀ v ∈ vs, p v := by
  cases items with
  | nil => exact .pure (List.forall_mem_nil _)
  | cons v vs =>
    obtain ⟨hv, hvs⟩ := List.forall_mem_cons.1 h
    refine (hp.lower v hv).bind fun u hu => ?_
    exact (hp.lowerItems vs hvs).bind fun us hus => .pure (List.forall_mem_cons.2 ⟨hu, hus⟩)

theorem lowerEntries (hp : Formed p) (entries : List (Value × Value)) (h : EntriesPlain entries) :
    Gives (lowerEntries entries) fun es => ∀ e ∈ es, p e.1 ∧ p e.2 := by
  cases entries with
  | nil => exact .pure (List.forall_mem_nil _)
  | cons e rest =>
    obtain ⟨k, v⟩ := e
    obtain ⟨⟨hk, hv⟩, hrest⟩ := List.forall_mem_cons.1 h
    refine (hp.lower k hk).bind fun key hkey => (hp.lower v hv).bind fun value hvalue => ?_
    refine (hp.lowerEntries rest hrest).bind fun es hes => .pure ?_
    exact List.forall_mem_cons.2 ⟨⟨hkey, hvalue⟩, hes⟩

theorem template (hp : Formed p) (inside : Bool) (v : Value) (h : v.Plain) :
    Gives (template inside v) fun piece => p piece.form := by
  cases v with
  | marked m f =>
    have hf := Value.plain_marked.1 h
    cases m with
    | unquote => exact (hp.lower f hf).bind fun _ hv => .pure hv
    | splice =>
      cases inside with
      | true => exact (hp.lower f hf).bind fun _ hv => .pure hv
      | false => exact .throw
    | quote | varQuote =>
      exact (hp.template true f hf).bind fun _ hpart =>
        .pure (hp.pair (hp.quoted (hp.atom _ rfl)) hpart)
    | deref =>
      exact (hp.template true f hf).bind fun _ hpart => .pure (hp.pair (hp.atom _ rfl) hpart)
    | template =>
      refine (ownTemplate (hp.template false f hf)).bind fun inner hinner => ?_
      exact (hp.plainTemplate inner.form hinner).bind fun _ hv => .pure hv
  | symbol s => exact (Gives.any _).bind fun t _ => .pure (hp.quoted (hp.atom _ rfl))
  | special f => exact .pure (hp.quoted (hp.atom _ rfl))
  | seq s => exact (hp.templateSeq s h).bind fun _ hparts => .pure (hp.listOf hparts)
  | vector items =>
    exact (hp.templateItems items (Value.plain_vector.1 h)).bind fun _ hparts =>
      .pure (hp.vectorOf hparts)
  | map entries =>
    exact (hp.templateEntries entries (Value.plain_map.1 h)).bind fun _ hparts =>
      .pure (hp.mapOf hparts)
  | _ => exact .pure (hp.atom _ rfl)

theorem templateSeq (hp : Formed p) (s : Seq) (h : (Value.seq s).Plain) :
    Gives (templateSeq s) fun parts => ∀ v ∈ parts, p v := by
  cases s with
  | cons head tail =>
    obtain ⟨hhead, htail⟩ := Value.plain_cons.1 h
    refine (hp.template true head hhead).bind fun part hpart => ?_
    refine (hp.templateSeq tail htail).bind fun parts hparts => .pure ?_
    exact List.forall_mem_cons.2 ⟨hp.elements part hpart, hparts⟩
  | _ => exact .pure (List.forall_mem_nil _)

theorem templateItems (hp : Formed p) (items : List Value) (h : AllPlain items) :
    Gives (templateItems items) fun parts => ∀ v ∈ parts, p v := by
  cases items with
  | nil => exact .pure (List.forall_mem_nil _)
  | cons v vs =>
    obtain ⟨hv, hvs⟩ := List.forall_mem_cons.1 h
    refine (hp.template true v hv).bind fun part hpart => ?_
    refine (hp.templateItems vs hvs).bind fun parts hparts => .pure ?_
    exact List.forall_mem_cons.2 ⟨hp.elements part hpart, hparts⟩

theorem templateEntries (hp : Formed p) (entries : List (Value × Value)) (h : EntriesPlain entries) :
    Gives (templateEntries entries) fun parts => ∀ v ∈ parts, p v := by
  cases entries with
  | nil => exact .pure (List.forall_mem_nil _)
  | cons e rest =>
    obtain ⟨k, v⟩ := e
    obtain ⟨⟨hk, hv⟩, hrest⟩ := List.forall_mem_cons.1 h
    refine (hp.template true k hk).bind fun key hkey => ?_
    refine (hp.template true v hv).bind fun value hvalue => ?_
    refine (hp.templateEntries rest hrest).bind fun parts hparts => .pure ?_
    exact List.forall_mem_cons.2 ⟨hp.elements key hkey,
      List.forall_mem_cons.2 ⟨hp.elements value hvalue, hparts⟩⟩

end

end Formed

namespace Shorthand
variable {form : Value} {parts : List Value}

theorem plain_elements (piece : Piece) (h : piece.form.Plain) : piece.elements.Plain :=
  plain_formed.elements piece h

theorem plain_quoted (h : form.Plain) : (quoted form).Plain := plain_formed.quoted h

theorem plain_concatenation (h : AllPlain parts) : (concatenation parts).Plain :=
  plain_formed.concatenation h

theorem plain_listOf (h : AllPlain parts) : (listOf parts).Plain := plain_formed.listOf h

theorem plain_vectorOf (h : AllPlain parts) : (vectorOf parts).Plain := plain_formed.vectorOf h

theorem lower_plain (v : Value) (h : v.Plain) : Gives (lower v) Value.Plain :=
  plain_formed.lower v h

end Shorthand

/-! Reading. -/

namespace Reading
open Value

/-- What is open holds plain forms only. -/
def PlainPending (pending : List Pending) : Prop :=
  ∀ d span items, Pending.opened d span items ∈ pending → AllPlain items

theorem plainPending_nil : PlainPending [] := fun _ _ _ h => absurd h List.not_mem_nil

theorem plainPending_cons {p : Pending} {below : List Pending}
    (hp : ∀ d span items, p = .opened d span items → AllPlain items)
    (hbelow : PlainPending below) : PlainPending (p :: below) := by
  intro d span items hmem
  rcases List.mem_cons.1 hmem with heq | hmem
  · exact hp d span items heq.symm
  · exact hbelow d span items hmem

theorem PlainPending.tail {p : Pending} {below : List Pending} (h : PlainPending (p :: below)) :
    PlainPending below :=
  fun d span items hmem => h d span items (List.mem_cons_of_mem p hmem)

theorem atom_isAtom (kind : TokenKind) (span : Span) :
    Gives (atom kind span) fun v => v.isAtom = true := by
  cases kind with
  | keyword text => exact (Gives.any _).bind fun _ _ => .pure rfl
  | symbol text =>
    unfold atom
    dsimp only
    split
    · exact .pure rfl
    · exact (Gives.any _).bind fun _ _ => .pure rfl
  | pattern source =>
    unfold atom
    dsimp only
    split
    · exact .pure rfl
    · exact .throw
  | _ => exact .pure rfl

theorem atom_plain (kind : TokenKind) (span : Span) : Gives (atom kind span) Plain :=
  fun names v after h => .atom (atom_isAtom kind span names v after h)

theorem collection_plain {d : Delimiter} {span : Span} {items : List Value} (h : AllPlain items) :
    Gives (collection d span items) Plain := by
  cases d with
  | paren => exact .pure (plain_list.2 h)
  | bracket => exact .pure (plain_vector.2 h)
  | brace =>
    unfold collection
    dsimp only
    split
    · exact .pure (plain_map.2 h.entriesOf)
    · exact .throw

theorem close_plain {d : Delimiter} {span : Span} {pending : List Pending}
    (h : PlainPending pending) :
    Gives (close d span pending) fun r => r.1.Plain ∧ PlainPending r.2 := by
  unfold close
  split
  · rename_i e opened items below
    split
    · have hitems := h e opened items List.mem_cons_self
      have hreverse : AllPlain items.reverse := fun v hv => hitems v (List.mem_reverse.1 hv)
      exact (collection_plain hreverse).bind fun _ hform => .pure ⟨hform, h.tail⟩
    · exact .throw
  · exact .throw

section
variable {p : Value → Prop}

/-- A top-level form that completes has every property that replacing marks gives. -/
theorem complete_formed (hp : Formed p) {form : Value} {pending : List Pending} {start : Span}
    (hform : form.Plain) (hpending : PlainPending pending) : Gives (complete form pending start)
      fun r => (∀ v ∈ r.1.toList, p v) ∧ PlainPending r.2.1 := by
  induction pending generalizing form with
  | nil =>
    have hlowered : Gives (lowered start form) p := by
      intro names v later hrun
      unfold lowered at hrun
      cases hlower : Shorthand.lower form { names := names } with
      | ok u st =>
        rw [hlower] at hrun
        cases hrun
        exact hp.lower form hform _ _ _ hlower
      | error message st => rw [hlower] at hrun; cases hrun
    exact hlowered.bind fun v hv => .pure ⟨List.forall_mem_singleton.2 hv, plainPending_nil⟩
  | cons p below ih =>
    cases p with
    | marked m => exact ih (.marked m hform) hpending.tail
    | opened d span items =>
      refine .pure ⟨List.forall_mem_nil _, plainPending_cons ?_ hpending.tail⟩
      rintro _ _ _ ⟨⟩
      exact .cons hform (hpending d span items List.mem_cons_self)

/-- Taking a token keeps everything that is open plain. -/
theorem advance_formed (hp : Formed p) {pending : List Pending} {start : Span} {t : Token}
    (h : PlainPending pending) : Gives (advance pending start t)
      fun r => (∀ v ∈ r.1.toList, p v) ∧ PlainPending r.2.1 := by
  obtain ⟨kind, span⟩ := t
  cases kind with
  | mark m => exact .pure ⟨List.forall_mem_nil _, plainPending_cons nofun h⟩
  | opening d =>
    refine .pure ⟨List.forall_mem_nil _, plainPending_cons ?_ h⟩
    rintro _ _ _ ⟨⟩
    exact .nil
  | closing d => exact (close_plain h).bind fun _ hr => complete_formed hp hr.1 hr.2
  | _ => exact (atom_plain _ span).bind fun _ hform => complete_formed hp hform h

theorem forms_formed (hp : Formed p) {tokens : List Token} {pending : List Pending} {start : Span}
    (h : PlainPending pending) : Gives (forms pending start tokens) fun vs => ∀ v ∈ vs, p v := by
  induction tokens generalizing pending start with
  | nil => exact (Gives.any _).bind fun _ _ => .pure (List.forall_mem_nil _)
  | cons t rest ih =>
    by_cases hend : t.kind = .ending
    · obtain ⟨kind, span⟩ := t
      cases hend
      exact (Gives.any _).bind fun _ _ => .pure (List.forall_mem_nil _)
    · rw [forms_cons _ _ hend]
      refine (advance_formed hp h).bind fun r hr => (ih hr.2).bind fun more hmore => .pure ?_
      intro v hv
      exact (List.mem_append.1 hv).elim (hr.1 v) (hmore v)

end

end Reading

/-- Whatever is read has every property that replacing marks gives. -/
theorem readForms_formed {p : Value → Prop} (hp : Formed p) (source : String) :
    Gives (readForms source) fun vs => ∀ v ∈ vs, p v := by
  intro names forms later h
  unfold readForms at h
  split at h
  · cases h
  · rename_i tokens _
    have hforms : Gives (Reading.forms [] ⟨0, 0, 1, 1⟩ tokens) fun vs => ∀ v ∈ vs, p v :=
      Reading.forms_formed hp Reading.plainPending_nil
    split at h
    · rename_i hrun
      cases h
      exact hforms _ _ _ hrun
    · cases h

theorem readForms_plain (source : String) : Gives (readForms source) AllPlain :=
  readForms_formed plain_formed source

/-! Printing. -/

section
variable {e : Engine} {n : Nat} {w : World} {α β : Type}

theorem exists_mapM {f : α → Eval β} {xs : List α} (h : ∀ x ∈ xs, ∃ y, f x w = .ok y w) :
    ∃ ys, xs.mapM f w = .ok ys w := by
  induction xs with
  | nil => exact ⟨[], rfl⟩
  | cons x xs ih =>
    obtain ⟨hx, hxs⟩ := List.forall_mem_cons.1 h
    obtain ⟨y, hy⟩ := hx
    obtain ⟨ys, hys⟩ := ih hxs
    refine ⟨y :: ys, ?_⟩
    rw [List.mapM_cons, run_bind_ok hy, run_bind_ok hys]
    rfl

theorem exists_foldWithin {step : β → Value → Eval β} {s : Seq} {items : List Value} {k : Nat}
    (hs : s.Strict items) (he : 0 < e.bound) (hk : items.length < k)
    (h : ∀ x ∈ items, ∀ b, ∃ b', step b x w = .ok b' w) (b : β) :
    ∃ b', s.foldWithin e step k b w = .ok b' w := by
  induction items generalizing s k b with
  | nil =>
    obtain ⟨k, rfl⟩ := Nat.exists_eq_succ_of_ne_zero (Nat.ne_of_gt hk)
    refine ⟨b, ?_⟩
    rw [Seq.foldWithin, run_bind_ok (hs.uncons_nil he w)]
    rfl
  | cons x items ih =>
    obtain ⟨k, rfl⟩ := Nat.exists_eq_succ_of_ne_zero (Nat.ne_of_gt (Nat.zero_lt_of_lt hk))
    obtain ⟨hx, hitems⟩ := List.forall_mem_cons.1 h
    obtain ⟨t, ht, hhead⟩ := hs.uncons_cons he
    obtain ⟨b', hb'⟩ := hx b
    obtain ⟨b'', hb''⟩ := ih ht (Nat.lt_of_succ_lt_succ hk) hitems b'
    refine ⟨b'', ?_⟩
    rw [Seq.foldWithin, run_bind_ok (hhead w)]
    dsimp only
    rw [run_bind_ok hb', hb'']

end

namespace Value.Plain
variable {e : Engine} {v : Value}

theorem exists_textWithin (h : v.Plain) (style : Style) {n : Nat} (hn : v.size ≤ n)
    (he : v.size ≤ e.bound) (w : World) : ∃ text, v.textWithin e style n w = .ok text w := by
  induction n generalizing v with
  | zero =>
    have hpos := v.size_pos
    omega
  | succ n ih =>
    have hpos := v.size_pos
    cases h with
    | atom h =>
      cases v with
      | vector | seq | map | marked => cases h
      | _ => exact ⟨_, rfl⟩
    | @list items hitems =>
      rw [size_list] at hn he
      have hlen := length_le_sizeAll items
      have hparts : ∀ x ∈ items, ∀ acc : Array String, ∃ acc',
          (do return acc.push (← textWithin e style n x) : Eval (Array String)) w =
            .ok acc' w := by
        intro x hx acc
        have hsize := size_le_sizeAll hx
        obtain ⟨text, htext⟩ := ih (hitems x hx) (by omega) (by omega)
        exact ⟨acc.push text, run_bind_ok htext _⟩
      have hbound : 0 < e.bound := by omega
      have hlong : items.length < e.bound := by omega
      obtain ⟨parts, hfold⟩ :=
        exists_foldWithin (Seq.strict_ofList items) hbound hlong hparts #[]
      exact ⟨_, run_bind_ok hfold _⟩
    | @vector items hitems =>
      rw [size] at hn he
      have hparts : ∀ x ∈ items, ∃ text, textWithin e style n x w = .ok text w := by
        intro x hx
        have hsize := size_le_sizeAll hx
        exact ih (hitems x hx) (by omega) (by omega)
      obtain ⟨parts, hmapM⟩ := exists_mapM hparts
      exact ⟨_, run_bind_ok hmapM _⟩
    | @map entries hkeys hvalues =>
      rw [size] at hn he
      have hparts : ∀ f ∈ entries, ∃ text,
          (do
            let k ← textWithin e style n f.1
            return k ++ " " ++ (← textWithin e style n f.2) : Eval String) w = .ok text w := by
        intro f hf
        have hsize := size_le_sizeEntries hf
        obtain ⟨key, hkey⟩ := ih (hkeys f hf) (by omega) (by omega)
        obtain ⟨value, hvalue⟩ := ih (hvalues f hf) (by omega) (by omega)
        refine ⟨key ++ " " ++ value, ?_⟩
        rw [run_bind_ok hkey, run_bind_ok hvalue]
        rfl
      obtain ⟨parts, hmapM⟩ := exists_mapM hparts
      exact ⟨_, run_bind_ok hmapM _⟩
    | marked m hform =>
      rw [size] at hn he
      obtain ⟨text, htext⟩ := ih hform (by omega) (by omega)
      exact ⟨_, run_bind_ok htext _⟩

theorem exists_textOrType (h : v.Plain) (he : v.size ≤ e.bound) (w : World) :
    ∃ text, v.textOrType e w = .ok text w := by
  obtain ⟨text, htext⟩ := h.exists_textWithin .readable he he w
  refine ⟨text, ?_⟩
  rw [textOrType, Value.text, htext]

end Value.Plain

end LazyLisp
