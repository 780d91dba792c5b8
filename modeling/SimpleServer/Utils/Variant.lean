import SimpleServer.Foundations.Runs

/-!
# The tagged union

The class `Variant` of `variant.h`: a union of three members whose life times are managed by hand,
and a tag. An element is a value of one of the three types, which holds no `Variant` itself; its
copy constructor may throw. The union holds what was constructed in it last and not destroyed
since, and a log records the constructions and destructions of members. To destroy or to read a
member that is not alive is undefined, and is recorded as such.

An abstract `Variant` is the value last stored in it, if there is one. The code keeps to it in every
run of constructions, assignments and destructions, whichever copies throw (`inStep_of_run`).
-/

namespace SimpleServer

/-- The members of the union. -/
inductive VariantMember
  | value1
  | value2
  | value3
  deriving DecidableEq, Repr

/-- `Variant::Type`. -/
inductive VariantType
  | none
  | t1
  | t2
  | t3
  deriving DecidableEq, Repr

/-- The tag that names a member. -/
def VariantMember.tag : VariantMember → VariantType
  | value1 => .t1
  | value2 => .t2
  | value3 => .t3

/-- The member that a tag names. -/
def VariantType.member : VariantType → Option VariantMember
  | none => Option.none
  | t1 => some .value1
  | t2 => some .value2
  | t3 => some .value3

namespace Variant

/-- One construction of a member: in which `Variant`, of which member, and at which place in the
log. -/
structure Birth where
  variant : ℕ
  member : VariantMember
  serial : ℕ
  deriving DecidableEq, Repr

inductive Event
  | constructed (b : Birth)
  | destroyed (b : Birth)
  | undefined
  deriving DecidableEq, Repr

/-- A member that is alive. The values of the three types are those of `V`. -/
structure Element (V : VariantMember → Type) where
  member : VariantMember
  value : V member
  serial : ℕ

/-- An object of class `Variant`. -/
structure Obj (V : VariantMember → Type) where
  currentType : VariantType
  storage : Option (Element V)

/-- What a getter throws, or that it reads a member that is not alive. -/
inductive Failure
  | runtimeError (what : String)
  | undefined
  deriving DecidableEq, Repr

section Code

variable {V : VariantMember → Type}

/-! ## Members -/

/-- The value of a member that is alive. -/
def Obj.read (o : Obj V) (m : VariantMember) : Option (V m) :=
  match o.storage with
  | none => none
  | some e => if h : e.member = m then some (h ▸ e.value) else none

/-- `valueN.~TN()`. -/
def destroyMember (id : ℕ) (m : VariantMember) (o : Obj V) (log : List Event) :
    Obj V × List Event :=
  match o.storage with
  | none => (o, log ++ [.undefined])
  | some e =>
    if e.member = m then ({ o with storage := none }, log ++ [.destroyed ⟨id, m, e.serial⟩])
    else (o, log ++ [.undefined])

/-- `new (&valueN) TN(val)`, when the copy constructor returns. -/
def constructMember (id : ℕ) (m : VariantMember) (val : V m) (o : Obj V) (log : List Event) :
    Obj V × List Event :=
  ({ o with storage := some ⟨m, val, log.length⟩ }, log ++ [.constructed ⟨id, m, log.length⟩])

/-! ## The member functions -/

/-- `destroy`. -/
def destroy (id : ℕ) (o : Obj V) (log : List Event) : Obj V × List Event :=
  let (o, log) :=
    match o.currentType.member with
    | some m => destroyMember id m o log
    | none => (o, log)
  ({ o with currentType := .none }, log)

/-- The `switch` of the copy constructor and of the assignment: the object, the log and whether the
copy constructor of the element has thrown. -/
def copyFrom (id : ℕ) (other : Obj V) (throws : Bool) (o : Obj V) (log : List Event) :
    Obj V × List Event × Bool :=
  match other.currentType.member with
  | none => (o, log, false)
  | some m =>
    match other.read m with
    | none => (o, log ++ [.undefined], false)
    | some val =>
      if throws then (o, log, true)
      else
        let (o, log) := constructMember id m val o log
        ({ o with currentType := m.tag }, log, false)

/-- `get_as_t1`, `get_as_t2` and `get_as_t3`. -/
def getAs (m : VariantMember) (what : String) (o : Obj V) : Except Failure (V m) :=
  if o.currentType ≠ m.tag then .error (.runtimeError what)
  else
    match o.read m with
    | some val => .ok val
    | none => .error .undefined

def getAsT1 (o : Obj V) : Except Failure (V .value1) :=
  getAs .value1 "Bad Variant Access: Not T1" o

def getAsT2 (o : Obj V) : Except Failure (V .value2) :=
  getAs .value2 "Bad Variant Access: Not T2" o

def getAsT3 (o : Obj V) : Except Failure (V .value3) :=
  getAs .value3 "Bad Variant Access: Not T3" o

/-- `is<T>`; the three types of the template are `types`. -/
def is {Ty : Type} [DecidableEq Ty] (types : VariantMember → Ty) (T : Ty) (o : Obj V) : Bool :=
  if T = types .value1 then o.currentType = .t1
  else if T = types .value2 then o.currentType = .t2
  else if T = types .value3 then o.currentType = .t3
  else false

/-! ## Programs -/

/-- The `Variant`s that are alive, the number of those constructed, and the log. -/
structure World (V : VariantMember → Type) where
  objects : ℕ → Option (Obj V)
  fresh : ℕ
  log : List Event

/-- Before the first construction. -/
def World.start : World V := ⟨fun _ => none, 0, []⟩

/-- A call, with whether the copy constructor of an element, if it is called, throws. -/
inductive Op (V : VariantMember → Type)
  | default
  | fromValue (m : VariantMember) (val : V m) (throws : Bool)
  | copy (other : ℕ) (throws : Bool)
  | assign (this other : ℕ) (throws : Bool)
  | destruct (this : ℕ)

/-- The object with the next number, which is not alive when its constructor has thrown. -/
def World.add (w : World V) (o : Obj V) (log : List Event) (thrown : Bool) : World V where
  objects := if thrown then w.objects else Function.update w.objects w.fresh (some o)
  fresh := w.fresh + 1
  log := log

/-- One call; `none` when an object that it names is not alive. -/
def step (w : World V) : Op V → Option (World V)
  | .default => some (w.add ⟨.none, none⟩ w.log false)
  | .fromValue m val throws =>
    let o : Obj V := ⟨m.tag, none⟩
    if throws then some (w.add o w.log true)
    else
      let (o, log) := constructMember w.fresh m val o w.log
      some (w.add o log false)
  | .copy other throws =>
    (w.objects other).map fun other =>
      let (o, log, thrown) := copyFrom w.fresh other throws ⟨.none, none⟩ w.log
      w.add o log thrown
  | .assign this other throws =>
    (w.objects this).bind fun o => (w.objects other).map fun other' =>
      if this ≠ other then
        let (o, log) := destroy this o w.log
        let (o, log, _) := copyFrom this other' throws o log
        { w with objects := Function.update w.objects this (some o), log := log }
      else w
  | .destruct this =>
    (w.objects this).map fun o =>
      let (_, log) := destroy this o w.log
      { w with objects := Function.update w.objects this none, log := log }

/-- The value in an object. -/
def Obj.value (o : Obj V) : Option (Σ m, V m) := o.storage.map fun e => ⟨e.member, e.value⟩

/-! ## Values last stored -/

/-- What a program should see of its `Variant`s: the value last stored in each of those that are
alive, if there is one. -/
structure Store (V : VariantMember → Type) where
  objects : ℕ → Option (Option (Σ m, V m))
  fresh : ℕ

namespace Store

def start : Store V := ⟨fun _ => none, 0⟩

/-- The `Variant` with the next number. -/
def add (a : Store V) (x : Option (Option (Σ m, V m))) : Store V :=
  ⟨Function.update a.objects a.fresh x, a.fresh + 1⟩

/-- What a call should do. A copy that throws leaves no object in a constructor and no value in an
assignment. -/
def step (a : Store V) : Op V → Option (Store V)
  | .default => some (a.add (some none))
  | .fromValue m val throws => some (a.add (if throws then none else some (some ⟨m, val⟩)))
  | .copy other throws =>
    (a.objects other).map fun x => a.add (if throws && x.isSome then none else some x)
  | .assign this other throws =>
    (a.objects this).bind fun _ => (a.objects other).map fun x =>
      if this = other then a
      else { a with
        objects := Function.update a.objects this (some (if throws then none else x)) }
  | .destruct this =>
    (a.objects this).map fun _ => { a with objects := Function.update a.objects this none }

end Store

end Code

/-! ## The log -/

/-- The constructions in a log. -/
def births (log : List Event) : List Birth :=
  log.filterMap fun
    | .constructed b => some b
    | _ => none

/-- The members of a `Variant` that were constructed and not destroyed. -/
def alive (log : List Event) (id : ℕ) : List Birth :=
  (births log).filter fun b => b.variant = id ∧ .destroyed b ∉ log

/-- Nothing undefined was done, only what was constructed was destroyed, and nothing twice. -/
structure LogOk (log : List Event) : Prop where
  defined : .undefined ∉ log
  serial_lt : ∀ b ∈ births log, b.serial < log.length
  nodup : (births log).Nodup
  destroyed : ∀ b, .destroyed b ∈ log → b ∈ births log
  once : ∀ b, log.count (.destroyed b) ≤ 1

section Log

variable {log : List Event} {b : Birth} {id : ℕ}

theorem births_constructed (log : List Event) (b : Birth) :
    births (log ++ [.constructed b]) = births log ++ [b] := by
  simp [births]

theorem births_destroyed (log : List Event) (b : Birth) :
    births (log ++ [.destroyed b]) = births log := by
  simp [births]

theorem mem_alive : b ∈ alive log id ↔ b ∈ births log ∧ b.variant = id ∧ .destroyed b ∉ log := by
  simp [alive]

/-- A construction adds a member to one `Variant`. -/
theorem alive_constructed (hb : .destroyed b ∉ log) (id : ℕ) :
    alive (log ++ [.constructed b]) id = alive log id ++ if b.variant = id then [b] else [] := by
  have hkeep : ∀ c : Birth, (.destroyed c ∉ log ++ [.constructed b]) ↔ .destroyed c ∉ log :=
    fun c => by simp
  simp only [alive, births_constructed, List.filter_append, hkeep]
  split_ifs with hid
  · simp [hid, hb]
  · simp [hid]

/-- A destruction takes a member away. -/
theorem alive_destroyed (log : List Event) (b : Birth) (id : ℕ) :
    alive (log ++ [.destroyed b]) id = (alive log id).filter (· ≠ b) := by
  rw [alive, alive, births_destroyed, List.filter_filter]
  refine List.filter_congr fun c _ => ?_
  rw [← Bool.decide_and, decide_eq_decide, List.mem_append, List.mem_singleton,
    Event.destroyed.injEq, not_or]
  tauto

theorem LogOk.not_destroyed (h : LogOk log) {id : ℕ} {m : VariantMember} :
    .destroyed ⟨id, m, log.length⟩ ∉ log := fun hmem =>
  lt_irrefl _ (h.serial_lt _ (h.destroyed _ hmem))

theorem LogOk.constructed (h : LogOk log) (id : ℕ) (m : VariantMember) :
    LogOk (log ++ [.constructed ⟨id, m, log.length⟩]) := by
  refine ⟨?_, fun b hb => ?_, ?_, fun b hb => ?_, fun b => ?_⟩
  · simpa using h.defined
  · rw [births_constructed, List.mem_append, List.mem_singleton] at hb
    rw [List.length_append, List.length_singleton]
    rcases hb with hb | rfl
    · exact Nat.lt_succ_of_lt (h.serial_lt b hb)
    · exact Nat.lt_succ_self _
  · rw [births_constructed, List.nodup_append]
    refine ⟨h.nodup, List.nodup_singleton _, fun b hb c hc heq => ?_⟩
    rw [List.mem_singleton] at hc
    subst hc
    subst heq
    exact lt_irrefl _ (h.serial_lt _ hb)
  · rw [births_constructed]
    exact List.mem_append_left _ (h.destroyed b (by simpa using hb))
  · simpa [List.count_append] using h.once b

theorem LogOk.of_alive (h : LogOk log) (hb : b ∈ alive log id) : LogOk (log ++ [.destroyed b]) := by
  obtain ⟨hbirth, -, hnot⟩ := mem_alive.mp hb
  refine ⟨?_, fun c hc => ?_, ?_, fun c hc => ?_, fun c => ?_⟩
  · simpa using h.defined
  · rw [births_destroyed] at hc
    rw [List.length_append]
    exact Nat.lt_add_right _ (h.serial_lt c hc)
  · rw [births_destroyed]
    exact h.nodup
  · rw [births_destroyed]
    rcases List.mem_append.mp hc with hc | hc
    · exact h.destroyed c hc
    · rw [List.mem_singleton, Event.destroyed.injEq] at hc
      rwa [hc]
  · rw [List.count_append, List.count_singleton]
    by_cases hcb : c = b
    · subst hcb
      rw [List.count_eq_zero_of_not_mem hnot]
      simp
    · have hone := h.once c
      simpa [Ne.symm hcb] using hone

end Log

section Kept

variable {V : VariantMember → Type} {log log' : List Event} {id : ℕ} {o : Obj V}

/-- The tag that should stand beside what the union holds. -/
def tagOf (storage : Option (Element V)) : VariantType :=
  match storage with
  | none => .none
  | some e => e.member.tag

/-- The union holds the one member of the object that is alive, if there is one, and the tag names
it. -/
structure Good (log : List Event) (id : ℕ) (o : Obj V) : Prop where
  alive_eq : alive log id = (o.storage.map fun e => ⟨id, e.member, e.serial⟩).toList
  tag_eq : o.currentType = tagOf o.storage

theorem member_tagOf (storage : Option (Element V)) :
    (tagOf storage).member = storage.map Element.member := by
  rcases storage with _ | ⟨m, val, serial⟩
  · rfl
  · cases m <;> rfl

/-- The log was carried on so that it is in order, and no other object was touched. -/
structure Carried (log log' : List Event) (id : ℕ) : Prop where
  logOk : LogOk log'
  frame : ∀ id', id' ≠ id → alive log' id' = alive log id'

theorem Carried.refl (h : LogOk log) (id : ℕ) : Carried log log id := ⟨h, fun _ _ => rfl⟩

theorem Carried.trans {log'' : List Event} (h : Carried log log' id) (h' : Carried log' log'' id) :
    Carried log log'' id :=
  ⟨h'.logOk, fun id' hne => (h'.frame id' hne).trans (h.frame id' hne)⟩

/-- A construction in an empty union. -/
theorem construct_spec (hlog : LogOk log) (hempty : alive log id = []) (m : VariantMember)
    (val : V m) (type : VariantType) :
    constructMember id m val ⟨type, none⟩ log =
        (⟨type, some ⟨m, val, log.length⟩⟩, log ++ [.constructed ⟨id, m, log.length⟩]) ∧
      Carried log (log ++ [.constructed ⟨id, m, log.length⟩]) id ∧
      Good (log ++ [.constructed ⟨id, m, log.length⟩]) id
        (⟨m.tag, some ⟨m, val, log.length⟩⟩ : Obj V) := by
  refine ⟨rfl, ⟨hlog.constructed id m, fun id' hne => ?_⟩, ?_, rfl⟩
  · rw [alive_constructed hlog.not_destroyed, if_neg (Ne.symm hne), List.append_nil]
  · rw [alive_constructed hlog.not_destroyed, hempty]
    simp

/-- `destroy` leaves an empty union and no tag. -/
theorem destroy_spec (hlog : LogOk log) (h : Good log id o) :
    ∃ log', destroy id o log = (⟨.none, none⟩, log') ∧ Carried log log' id ∧
      alive log' id = [] := by
  obtain ⟨currentType, storage⟩ := o
  obtain ⟨halive, htag⟩ := h
  simp only at halive htag
  subst htag
  rcases storage with _ | ⟨m, val, serial⟩
  · exact ⟨log, rfl, .refl hlog id, halive⟩
  · have hmember : (tagOf (some (⟨m, val, serial⟩ : Element V))).member = some m := member_tagOf _
    have hmem : (⟨id, m, serial⟩ : Birth) ∈ alive log id := by
      rw [halive]
      simp
    refine ⟨log ++ [.destroyed ⟨id, m, serial⟩], ?_, ⟨hlog.of_alive hmem, fun id' hne => ?_⟩, ?_⟩
    · simp [destroy, hmember, destroyMember]
    · rw [alive_destroyed, List.filter_eq_self]
      intro b hb
      rw [decide_eq_true_eq]
      rintro rfl
      exact hne (mem_alive.mp hb).2.1.symm
    · rw [alive_destroyed, halive]
      simp

/-- What the `switch` does to an empty object: it copies the value of the other, or throws. -/
theorem copyFrom_spec {other : Obj V} (hlog : LogOk log) (hempty : alive log id = [])
    (hother : other.currentType = tagOf other.storage) (throws : Bool) :
    ∃ o log', copyFrom id other throws ⟨.none, none⟩ log =
        (o, log', throws && other.value.isSome) ∧
      Carried log log' id ∧ Good log' id o ∧ o.value = if throws then none else other.value := by
  have hnone : Good log id (⟨.none, none⟩ : Obj V) := ⟨hempty, rfl⟩
  obtain ⟨currentType, storage⟩ := other
  simp only at hother
  subst hother
  rcases storage with _ | ⟨m, val, serial⟩
  · refine ⟨_, log, ?_, .refl hlog id, hnone, ?_⟩ <;> cases throws <;> rfl
  · have hmember : (tagOf (some (⟨m, val, serial⟩ : Element V))).member = some m := member_tagOf _
    have hread : (⟨tagOf (some ⟨m, val, serial⟩), some ⟨m, val, serial⟩⟩ : Obj V).read m =
        some val := by simp [Obj.read]
    cases throws with
    | true =>
      refine ⟨_, log, ?_, .refl hlog id, hnone, rfl⟩
      simp only [copyFrom, hmember, hread, if_true]
      rfl
    | false =>
      obtain ⟨hconstruct, hcarried, hgood⟩ := construct_spec hlog hempty m val .none
      refine ⟨_, _, ?_, hcarried, hgood, rfl⟩
      simp only [copyFrom, hmember, hread, hconstruct, Bool.false_eq_true, if_false,
        Bool.false_and]

/-! ## Runs -/

/-- What the log says of a number: a good object, or none and nothing alive. -/
def Fits (log : List Event) (id : ℕ) : Option (Obj V) → Prop
  | none => alive log id = []
  | some o => Good log id o

/-- The invariant of programs. -/
structure Kept (w : World V) : Prop where
  logOk : LogOk w.log
  fits : ∀ id, Fits w.log id (w.objects id)
  unused : ∀ id, w.fresh ≤ id → w.objects id = none

/-- The objects hold the values last stored. -/
structure Simulates (w : World V) (a : Store V) : Prop extends Kept w where
  fresh_eq : a.fresh = w.fresh
  values : ∀ id, a.objects id = (w.objects id).map Obj.value

theorem simulates_start : Simulates (World.start : World V) Store.start := by
  have hlog : LogOk (World.start : World V).log := by
    refine ⟨?_, ?_, ?_, ?_, ?_⟩ <;> simp [World.start, births]
  exact ⟨⟨hlog, fun _ => rfl, fun _ _ => rfl⟩, rfl, fun _ => rfl⟩

theorem Fits.carried {id' : ℕ} {x : Option (Obj V)} (h : Fits log id' x) (hne : id' ≠ id)
    (hcarried : Carried log log' id) : Fits log' id' x := by
  have hframe := hcarried.frame id' hne
  cases x with
  | none => exact hframe.trans h
  | some o => exact ⟨hframe.trans h.alive_eq, h.tag_eq⟩

/-- One object is replaced. -/
theorem Simulates.update {w : World V} {a : Store V} (h : Simulates w a) {x : Option (Obj V)}
    {fresh : ℕ} (hcarried : Carried w.log log' id) (hx : Fits log' id x) (hle : w.fresh ≤ fresh)
    (hid : id < fresh) :
    Simulates ⟨Function.update w.objects id x, fresh, log'⟩
      ⟨Function.update a.objects id (x.map Obj.value), fresh⟩ where
  logOk := hcarried.logOk
  fits id' := by
    by_cases hne : id' = id
    · subst hne
      simpa only [Function.update_self] using hx
    · simpa only [Function.update_of_ne hne] using (h.fits id').carried hne hcarried
  unused id' hid' := by
    have hne : id' ≠ id := (lt_of_lt_of_le hid hid').ne'
    simpa only [Function.update_of_ne hne] using h.unused id' (hle.trans hid')
  fresh_eq := rfl
  values id' := by
    by_cases hne : id' = id
    · subst hne
      simp only [Function.update_self]
    · simpa only [Function.update_of_ne hne] using h.values id'

/-- A new object, unless its constructor has thrown. -/
theorem Simulates.add {w : World V} {a : Store V} (h : Simulates w a) (thrown : Bool)
    (hcarried : Carried w.log log' w.fresh)
    (hfits : Fits log' w.fresh (if thrown then none else some o)) :
    Simulates (w.add o log' thrown) (a.add (if thrown then none else some o.value)) := by
  have hunused := h.unused w.fresh le_rfl
  have hobjects : (w.add o log' thrown).objects =
      Function.update w.objects w.fresh (if thrown then none else some o) := by
    unfold World.add
    cases thrown with
    | true => exact (Function.update_eq_self_iff.mpr hunused.symm).symm
    | false => rfl
  have hadd : a.add (if thrown then none else some o.value) =
      ⟨Function.update a.objects w.fresh ((if thrown then none else some o).map Obj.value),
        w.fresh + 1⟩ := by
    unfold Store.add
    rw [h.fresh_eq]
    cases thrown <;> rfl
  have hupdate := h.update hcarried hfits (Nat.le_succ _) (Nat.lt_succ_self _)
  rw [← hobjects] at hupdate
  rw [hadd]
  exact hupdate

section Steps

variable {w w' : World V} {a : Store V}

theorem Kept.good (h : Kept w) (ho : w.objects id = some o) : Good w.log id o := by
  have hfits := h.fits id
  rwa [ho] at hfits

theorem Kept.lt_fresh (h : Kept w) (ho : w.objects id = some o) : id < w.fresh := by
  by_contra hlt
  rw [h.unused id (not_lt.mp hlt)] at ho
  cases ho

theorem Kept.alive_fresh (h : Kept w) : alive w.log w.fresh = [] := by
  have hfits := h.fits w.fresh
  rwa [h.unused w.fresh le_rfl] at hfits

theorem Simulates.value_eq (h : Simulates w a) (ho : w.objects id = some o) :
    a.objects id = some o.value := by
  rw [h.values, ho, Option.map_some]

theorem Good.alive_eq_nil (h : Good log id o) (hvalue : o.value = none) : alive log id = [] := by
  rw [h.alive_eq, Option.map_eq_none_iff.mp hvalue]
  rfl

theorem simulates_default (h : Simulates w a) (hstep : step w .default = some w') :
    ∃ a', Store.step a .default = some a' ∧ Simulates w' a' := by
  cases hstep
  exact ⟨_, rfl, h.add false (.refl h.logOk _) ⟨h.alive_fresh, rfl⟩⟩

theorem simulates_fromValue (h : Simulates w a) {m : VariantMember} {val : V m} {throws : Bool}
    (hstep : step w (.fromValue m val throws) = some w') :
    ∃ a', Store.step a (.fromValue m val throws) = some a' ∧ Simulates w' a' := by
  refine ⟨_, rfl, ?_⟩
  cases throws with
  | true =>
    cases hstep
    exact h.add true (.refl h.logOk _) h.alive_fresh
  | false =>
    obtain ⟨hconstruct, hcarried, hgood⟩ := construct_spec h.logOk h.alive_fresh m val m.tag
    simp only [step, Bool.false_eq_true, if_false, hconstruct, Option.some.injEq] at hstep
    subst hstep
    exact h.add false hcarried hgood

theorem simulates_copy (h : Simulates w a) {other : ℕ} {throws : Bool}
    (hstep : step w (.copy other throws) = some w') :
    ∃ a', Store.step a (.copy other throws) = some a' ∧ Simulates w' a' := by
  obtain ⟨o, ho, rfl⟩ := Option.map_eq_some_iff.mp hstep
  obtain ⟨o₁, log₁, hcopy, hcarried, hgood, hvalue⟩ :=
    copyFrom_spec h.logOk h.alive_fresh (h.good ho).tag_eq throws
  refine ⟨_, by rw [Store.step, h.value_eq ho, Option.map_some], ?_⟩
  simp only [hcopy]
  by_cases hthrown : (throws && o.value.isSome) = true
  · have hnone : o₁.value = none := by
      rw [hvalue, if_pos (Bool.and_eq_true_iff.mp hthrown).1]
    rw [hthrown]
    exact h.add true hcarried (hgood.alive_eq_nil hnone)
  · have hsame : o₁.value = o.value := by
      rw [hvalue]
      cases throws with
      | true =>
        rw [Bool.true_and, Bool.not_eq_true, Option.isSome_eq_false_iff, Option.isNone_iff_eq_none]
          at hthrown
        rw [hthrown, if_pos rfl]
      | false => rfl
    rw [Bool.not_eq_true] at hthrown
    rw [hthrown, ← hsame]
    exact h.add false hcarried hgood

theorem simulates_assign (h : Simulates w a) {this other : ℕ} {throws : Bool}
    (hstep : step w (.assign this other throws) = some w') :
    ∃ a', Store.step a (.assign this other throws) = some a' ∧ Simulates w' a' := by
  obtain ⟨o, ho, hstep⟩ := Option.bind_eq_some_iff.mp hstep
  obtain ⟨o', ho', rfl⟩ := Option.map_eq_some_iff.mp hstep
  refine ⟨_, by rw [Store.step, h.value_eq ho, h.value_eq ho', Option.bind_some, Option.map_some],
    ?_⟩
  by_cases hself : this = other
  · rw [if_neg (not_not.mpr hself), if_pos hself]
    exact h
  · obtain ⟨log₁, hdestroy, hcarried, hempty⟩ := destroy_spec h.logOk (h.good ho)
    obtain ⟨o₂, log₂, hcopy, hcarried', hgood, hvalue⟩ :=
      copyFrom_spec hcarried.logOk hempty (h.good ho').tag_eq throws
    rw [if_pos hself, if_neg hself, ← hvalue, h.fresh_eq]
    simp only [hdestroy, hcopy]
    have hfits : Fits log₂ this (some o₂) := hgood
    exact h.update (hcarried.trans hcarried') hfits le_rfl (h.lt_fresh ho)

theorem simulates_destruct (h : Simulates w a) {this : ℕ}
    (hstep : step w (.destruct this) = some w') :
    ∃ a', Store.step a (.destruct this) = some a' ∧ Simulates w' a' := by
  obtain ⟨o, ho, rfl⟩ := Option.map_eq_some_iff.mp hstep
  obtain ⟨log₁, hdestroy, hcarried, hempty⟩ := destroy_spec h.logOk (h.good ho)
  refine ⟨_, by rw [Store.step, h.value_eq ho, Option.map_some], ?_⟩
  have hfits : Fits log₁ this (none : Option (Obj V)) := hempty
  simp only [hdestroy, h.fresh_eq]
  exact h.update hcarried hfits le_rfl (h.lt_fresh ho)

/-- Where the code cannot make a call, an object that it names is not alive. -/
theorem storeStep_eq_none (h : Simulates w a) {op : Op V} (hstep : step w op = none) :
    Store.step a op = none := by
  cases op with
  | default => cases hstep
  | fromValue m val throws =>
    rw [step] at hstep
    split_ifs at hstep
  | copy other throws =>
    rw [step, Option.map_eq_none_iff] at hstep
    rw [Store.step, h.values, hstep, Option.map_none, Option.map_none]
  | assign this other throws =>
    rw [Store.step, h.values, h.values]
    cases hthis : w.objects this with
    | none => rfl
    | some o =>
      rw [step, hthis, Option.bind_some, Option.map_eq_none_iff] at hstep
      rw [hstep]
      rfl
  | destruct this =>
    rw [step, Option.map_eq_none_iff] at hstep
    rw [Store.step, h.values, hstep, Option.map_none, Option.map_none]

/-- One call keeps the simulation. -/
theorem step_rel (w : World V) (a : Store V) (op : Op V) (h : Simulates w a) :
    Option.Rel Simulates (step w op) (Store.step a op) := by
  cases hstep : step w op with
  | none =>
    rw [storeStep_eq_none h hstep]
    exact .none
  | some w' =>
    obtain ⟨a', ha', h'⟩ : ∃ a', Store.step a op = some a' ∧ Simulates w' a' := by
      cases op with
      | default => exact simulates_default h hstep
      | fromValue m val throws => exact simulates_fromValue h hstep
      | copy other throws => exact simulates_copy h hstep
      | assign this other throws => exact simulates_assign h hstep
      | destruct this => exact simulates_destruct h hstep
    rw [ha']
    exact .some h'

end Steps

/-! ## What a program sees -/

/-- The tag of the value last stored. -/
def lastTag (last : Option (Σ m, V m)) : VariantType :=
  match last with
  | none => .none
  | some x => x.1.tag

/-- A getter gives the value last stored when the tag names its member, and throws otherwise. -/
def GetsLast (last : Option (Σ m, V m)) (o : Obj V) (m : VariantMember)
    (result : Except Failure (V m)) : Prop :=
  if o.currentType = m.tag then ∃ val, last = some ⟨m, val⟩ ∧ result = .ok val
  else ∃ what, result = .error (.runtimeError what)

/-- A `Variant` is in step with the log and with the value last stored in it. -/
structure ObjInStep {Ty : Type} [DecidableEq Ty] (types : VariantMember → Ty) (log : List Event)
    (id : ℕ) (o : Obj V) (last : Option (Σ m, V m)) : Prop where
  tag : (alive log id = [] ∧ o.currentType = .none) ∨
    ∃ b, alive log id = [b] ∧ o.currentType = b.member.tag
  last_tag : o.currentType = lastTag last
  is_iff : ∀ T, is types T o = true ↔ ∃ m : VariantMember, o.currentType = m.tag ∧ T = types m
  getAsT1 : GetsLast last o .value1 (getAsT1 o)
  getAsT2 : GetsLast last o .value2 (getAsT2 o)
  getAsT3 : GetsLast last o .value3 (getAsT3 o)

/-- The `Variant`s that should be alive are, and are in step, and the members of the others were
each destroyed once. -/
structure InStep {Ty : Type} [DecidableEq Ty] (types : VariantMember → Ty) (w : World V)
    (a : Store V) : Prop where
  defined : .undefined ∉ w.log
  nodup : (births w.log).Nodup
  destroyed : ∀ b, .destroyed b ∈ w.log → .constructed b ∈ w.log ∧ w.log.count (.destroyed b) = 1
  ended : ∀ b, .constructed b ∈ w.log → w.objects b.variant = none →
    w.log.count (.destroyed b) = 1
  live : ∀ id, w.objects id = none ↔ a.objects id = none
  objects : ∀ id o, w.objects id = some o →
    ∃ last, a.objects id = some last ∧ ObjInStep types w.log id o last

theorem mem_births {b : Birth} : b ∈ births log ↔ .constructed b ∈ log := by
  simp only [births, List.mem_filterMap]
  constructor
  · rintro ⟨e, he, heq⟩
    cases e with
    | constructed c =>
      cases heq
      exact he
    | destroyed c => cases heq
    | undefined => cases heq
  · exact fun h => ⟨_, h, rfl⟩

theorem LogOk.count_eq_one (h : LogOk log) {b : Birth} (hb : .destroyed b ∈ log) :
    log.count (.destroyed b) = 1 :=
  le_antisymm (h.once b) (List.one_le_count_iff.mpr hb)

/-- The tag beside what the log says. -/
theorem Good.tag (h : Good log id o) : (alive log id = [] ∧ o.currentType = .none) ∨
    ∃ b, alive log id = [b] ∧ o.currentType = b.member.tag := by
  rw [h.alive_eq, h.tag_eq]
  cases o.storage with
  | none => exact .inl ⟨rfl, rfl⟩
  | some e => exact .inr ⟨_, rfl, rfl⟩

/-- The tag beside the value that is stored. -/
theorem Good.last_tag (h : Good log id o) : o.currentType = lastTag o.value := by
  rw [h.tag_eq, Obj.value]
  cases o.storage <;> rfl

theorem tag_injective : Function.Injective VariantMember.tag := by
  intro m m'
  cases m <;> cases m' <;> simp [VariantMember.tag]

/-- A getter reads the member that is alive, or throws. -/
theorem getAs_spec (h : Good log id o) (m : VariantMember) (what : String) :
    GetsLast o.value o m (getAs m what o) := by
  unfold GetsLast getAs
  by_cases htag : o.currentType = m.tag
  · rw [if_pos htag, if_neg (not_not.mpr htag)]
    obtain ⟨currentType, storage⟩ := o
    have hstorage : currentType = tagOf storage := h.tag_eq
    simp only at htag
    rcases storage with _ | ⟨m', val, serial⟩
    · rw [hstorage] at htag
      cases m <;> cases htag
    · have hm : m' = m := tag_injective (hstorage.symm.trans htag)
      subst hm
      refine ⟨val, rfl, ?_⟩
      simp [Obj.read]
  · rw [if_neg htag, if_pos htag]
    exact ⟨what, rfl⟩

/-- `is<T>` asks for the type of the tag. -/
theorem is_iff {Ty : Type} [DecidableEq Ty] {types : VariantMember → Ty}
    (htypes : Function.Injective types) (T : Ty) (o : Obj V) :
    is types T o = true ↔ ∃ m : VariantMember, o.currentType = m.tag ∧ T = types m := by
  have hcases : ∀ m, T = types m → (is types T o = true ↔ o.currentType = m.tag) := by
    rintro m rfl
    cases m <;> simp [is, htypes.eq_iff, VariantMember.tag]
  constructor
  · intro h
    by_cases hm : ∃ m, T = types m
    · obtain ⟨m, hm⟩ := hm
      exact ⟨m, (hcases m hm).mp h, hm⟩
    · rw [not_exists] at hm
      simp [is, hm] at h
  · rintro ⟨m, htag, hm⟩
    exact (hcases m hm).mpr htag

theorem Simulates.inStep {Ty : Type} [DecidableEq Ty] {types : VariantMember → Ty}
    (htypes : Function.Injective types) {w : World V} {a : Store V} (h : Simulates w a) :
    InStep types w a where
  defined := h.logOk.defined
  nodup := h.logOk.nodup
  destroyed b hb := ⟨mem_births.mp (h.logOk.destroyed b hb), h.logOk.count_eq_one hb⟩
  ended b hb hnone := by
    have hempty : alive w.log b.variant = [] := by
      have hfits := h.fits b.variant
      rwa [hnone] at hfits
    by_contra hcount
    have hmem : b ∈ alive w.log b.variant :=
      mem_alive.mpr ⟨mem_births.mpr hb, rfl, fun hd => hcount (h.logOk.count_eq_one hd)⟩
    rw [hempty] at hmem
    cases hmem
  live id := by rw [h.values, Option.map_eq_none_iff]
  objects id o ho :=
    ⟨o.value, h.value_eq ho, (h.good ho).tag, (h.good ho).last_tag, fun T => is_iff htypes T o,
      getAs_spec (h.good ho) .value1 _, getAs_spec (h.good ho) .value2 _,
      getAs_spec (h.good ho) .value3 _⟩

end Kept

/-- **The tag and the member stay in step.** Every list of constructions, assignments and
destructions that names only `Variant`s that are alive is carried out, whichever copies throw. The
tag of a `Variant` then names the one member that is alive in it, which is that of the value last
stored, each member is destroyed once by the end of its `Variant`, `is` and the getters follow the
tag, and what a getter gives is the value last stored. -/
theorem inStep_of_run {V : VariantMember → Type} {Ty : Type} [DecidableEq Ty]
    (types : VariantMember → Ty) (htypes : Function.Injective types) (ops : List (Op V)) :
    Option.Rel (InStep types) (Runs.run step Runs.anyStep World.start ops)
      (Runs.run Store.step Runs.anyStep Store.start ops) := by
  have hrel := Runs.run_rel (@step_rel V) ops simulates_start
  generalize Runs.run step Runs.anyStep World.start ops = x at hrel
  generalize Runs.run Store.step Runs.anyStep Store.start ops = y at hrel
  cases hrel with
  | some hsim => exact .some (hsim.inStep htypes)
  | none => exact .none

/-- A default construction, an assignment that throws, one to itself, and a destruction. -/
def throwingOps : List (Op fun _ => ℕ) :=
  [.default, .fromValue .value1 7 false, .fromValue .value2 8 false, .copy 1 false,
    .assign 2 1 true, .assign 3 3 false, .assign 2 3 false, .copy 1 true, .destruct 1]

theorem inStep_of_run_throwing :
    (Runs.run step Runs.anyStep World.start throwingOps).isSome = true ∧
    Option.Rel (InStep id) (Runs.run step Runs.anyStep World.start throwingOps)
      (Runs.run Store.step Runs.anyStep Store.start throwingOps) :=
  ⟨rfl, inStep_of_run id Function.injective_id throwingOps⟩

end Variant

end SimpleServer
