import InfixArithmetic.Log.Registry
import Mathlib.Data.List.Forall2
/-!
# One logger for a name

A request changes the logger of its own name and no other (`logger?_request`), and to set up a
logger again changes nothing (`Logger.setUp_setUp`). So what requests come to depends on the first
one for each name alone, however they are interleaved: `logger?_requestAll`. The answers are places
in a registry that only grows, so equal names get equal answers and different names different ones:
`requestAll_answers`.
-/

namespace InfixArithmetic.Log

namespace Logger

@[simp] theorem name_setUp (logger : Logger) (level : Int) :
    (logger.setUp level).name = logger.name := by
  unfold setUp
  split
  · rfl
  · rfl

theorem setUp_of_handlers_eq_nil {logger : Logger} (hnone : logger.handlers = []) (level : Int) :
    logger.setUp level = ⟨logger.name, level, [lineFormat]⟩ := by
  simp [setUp, hnone]

theorem setUp_of_handlers_ne_nil {logger : Logger} (hsome : logger.handlers ≠ []) (level : Int) :
    logger.setUp level = logger := by
  simp [setUp, hsome]

theorem setUp_setUp (logger : Logger) (first later : Int) :
    (logger.setUp first).setUp later = logger.setUp first := by
  apply setUp_of_handlers_ne_nil
  by_cases hnone : logger.handlers = []
  · rw [setUp_of_handlers_eq_nil hnone]
    exact List.cons_ne_nil _ _
  · rwa [setUp_of_handlers_ne_nil hnone]

end Logger

namespace Registry

def logger? (r : Registry) (name : String) : Option Logger :=
  (r.place? name).bind r.get?

variable {r : Registry} {name other : String} {level : Int} {place : Nat}

/-! ## Places -/

theorem place?_congr {s : Registry} (hnames : s.loggers.map (·.name) = r.loggers.map (·.name))
    (name : String) : s.place? name = r.place? name := by
  have hplace : ∀ t : Registry,
      t.place? name = (t.loggers.map (·.name)).findIdx? (· == name) := by
    intro t
    rw [List.findIdx?_map]
    rfl
  rw [hplace, hplace, hnames]

theorem exists_of_place? (hplace : r.place? name = some place) :
    ∃ logger, r.get? place = some logger ∧ logger.name = name := by
  obtain ⟨hlt, hname, -⟩ := List.findIdx?_eq_some_iff_getElem.1 hplace
  exact ⟨_, List.getElem?_eq_getElem hlt, by simpa using hname⟩

theorem name_eq_of_place? (hname : r.place? name = some place)
    (hother : r.place? other = some place) : name = other := by
  obtain ⟨logger, hlogger, rfl⟩ := exists_of_place? hname
  obtain ⟨same, hsame, rfl⟩ := exists_of_place? hother
  cases hlogger.symm.trans hsame
  rfl

theorem logger?_of_place? (hplace : r.place? name = some place) :
    r.logger? name = r.get? place := by
  rw [logger?, hplace, Option.bind_some]

/-! ## A single request -/

theorem place?_append_self (hnew : r.place? name = none) :
    (⟨r.loggers ++ [.new name]⟩ : Registry).place? name = some r.loggers.length := by
  rw [place?, List.findIdx?_append]
  change (r.place? name).or _ = _
  rw [hnew]
  simp [Logger.new]

theorem place?_append_of_ne (hne : other ≠ name) :
    (⟨r.loggers ++ [.new name]⟩ : Registry).place? other = r.place? other := by
  rw [place?, List.findIdx?_append]
  simp [Logger.new, hne.symm, place?]

def loggerOrNew (r : Registry) (name : String) : Logger :=
  (r.logger? name).getD (.new name)

theorem place?_enter_self (r : Registry) (name : String) :
    (r.enter name).2.place? name = some (r.enter name).1 := by
  unfold enter
  cases hplace : r.place? name with
  | some place => exact hplace
  | none => exact place?_append_self hplace

theorem place?_enter_of_ne (hne : other ≠ name) :
    (r.enter name).2.place? other = r.place? other := by
  unfold enter
  cases hplace : r.place? name with
  | some place => rfl
  | none => exact place?_append_of_ne hne

theorem get?_enter_self (r : Registry) (name : String) :
    (r.enter name).2.get? (r.enter name).1 = some (r.loggerOrNew name) := by
  unfold enter loggerOrNew
  cases hplace : r.place? name with
  | some place =>
    obtain ⟨logger, hlogger, -⟩ := exists_of_place? hplace
    rw [logger?_of_place? hplace, hlogger, Option.getD_some]
  | none =>
    rw [logger?, hplace]
    exact List.getElem?_concat_length

theorem get?_enter_of_place? (hother : r.place? other = some place) :
    (r.enter name).2.get? place = r.get? place := by
  unfold enter
  cases r.place? name with
  | some _ => rfl
  | none =>
    obtain ⟨logger, hlogger, -⟩ := exists_of_place? hother
    have hlt := (List.getElem?_eq_some_iff.1 hlogger).1
    exact List.getElem?_append_left hlt

theorem get?_request (r : Registry) (name : String) (level : Int) (place : Nat) :
    (r.request name level).2.get? place =
      ((r.enter name).2.get? place).map fun logger =>
        if (r.enter name).1 = place then logger.setUp level else logger :=
  List.getElem?_modify _ _ _ _

theorem place?_request (r : Registry) (name : String) (level : Int) (other : String) :
    (r.request name level).2.place? other = (r.enter name).2.place? other := by
  apply place?_congr
  apply List.ext_getElem?
  intro i
  rw [List.getElem?_map, List.getElem?_map]
  change ((r.request name level).2.get? i).map _ = _
  rw [get?_request, Option.map_map]
  congr 1
  funext logger
  dsimp only [Function.comp]
  split
  · exact logger.name_setUp level
  · rfl

theorem place?_request_self (r : Registry) (name : String) (level : Int) :
    (r.request name level).2.place? name = some (r.request name level).1 := by
  rw [place?_request]
  exact place?_enter_self r name

theorem place?_request_of_ne (hne : other ≠ name) :
    (r.request name level).2.place? other = r.place? other := by
  rw [place?_request, place?_enter_of_ne hne]

theorem logger?_request (r : Registry) (name : String) (level : Int) (other : String) :
    (r.request name level).2.logger? other =
      if other = name then some ((r.loggerOrNew name).setUp level) else r.logger? other := by
  split
  · rename_i hsame
    rw [hsame, logger?_of_place? (place?_request_self r name level), get?_request]
    change ((r.enter name).2.get? (r.enter name).1).map _ = _
    rw [get?_enter_self, Option.map_some]
    exact congrArg some (if_pos rfl)
  · rename_i hne
    rw [logger?, place?_request_of_ne hne]
    cases hother : r.place? other with
    | none =>
      rw [logger?, hother]
      rfl
    | some place =>
      have hapart : (r.enter name).1 ≠ place := by
        intro hsame
        have hname := place?_enter_self r name
        have hplace := (place?_enter_of_ne hne).trans hother
        rw [hsame] at hname
        exact hne (name_eq_of_place? hplace hname)
      rw [Option.bind_some, get?_request, get?_enter_of_place? hother, logger?_of_place? hother]
      simp [hapart]

theorem place?_request_of_some (hplace : r.place? other = some place) :
    (r.request name level).2.place? other = some place := by
  by_cases hne : other = name
  · rw [hne] at hplace ⊢
    rw [place?_request_self, ← hplace]
    change some (r.enter name).1 = _
    rw [enter, hplace]
  · rw [place?_request_of_ne hne, hplace]

end Registry

/-! ## Many requests -/

structure Request where
  name : String
  level : Int

def firstLevel? (requests : List Request) (name : String) : Option Int :=
  (requests.find? (·.name == name)).map (·.level)

namespace Registry

def requestAll (r : Registry) : List Request → List Nat × Registry
  | [] => ([], r)
  | q :: requests =>
    let (place, r) := r.request q.name q.level
    let (places, r) := r.requestAll requests
    (place :: places, r)

variable {r : Registry} {name : String} {place : Nat} {requests : List Request}

theorem place?_requestAll_of_some (hplace : r.place? name = some place) :
    (r.requestAll requests).2.place? name = some place := by
  induction requests generalizing r with
  | nil => exact hplace
  | cons q requests ih => exact ih (place?_request_of_some hplace)

theorem forall₂_requestAll (r : Registry) (requests : List Request) :
    List.Forall₂ (fun q place => (r.requestAll requests).2.place? q.name = some place) requests
      (r.requestAll requests).1 := by
  induction requests generalizing r with
  | nil => exact .nil
  | cons q requests ih =>
    have hfirst : ((r.request q.name q.level).2.requestAll requests).2.place? q.name =
        some (r.request q.name q.level).1 :=
      place?_requestAll_of_some (place?_request_self r q.name q.level)
    exact .cons hfirst (ih (r.request q.name q.level).2)

/-- What requests come to for the logger of a name: the first of them that is for the name may set
it up, and all others leave it alone. -/
theorem logger?_requestAll (r : Registry) (requests : List Request) (name : String) :
    (r.requestAll requests).2.logger? name =
      match firstLevel? requests name with
      | none => r.logger? name
      | some level => some ((r.loggerOrNew name).setUp level) := by
  induction requests generalizing r with
  | nil => rfl
  | cons q requests ih =>
    change ((r.request q.name q.level).2.requestAll requests).2.logger? name = _
    rw [ih, loggerOrNew, logger?_request]
    by_cases hname : name = q.name
    · have hfirst : firstLevel? (q :: requests) name = some q.level := by
        simp [firstLevel?, hname]
      rw [hfirst, if_pos hname, hname]
      cases firstLevel? requests q.name with
      | none => rfl
      | some later => exact congrArg some (Logger.setUp_setUp _ _ _)
    · have hfirst : firstLevel? (q :: requests) name = firstLevel? requests name := by
        simp [firstLevel?, Ne.symm hname]
      rw [hfirst, if_neg hname]
      rfl

theorem name_loggerOrNew (r : Registry) (name : String) : (r.loggerOrNew name).name = name := by
  unfold loggerOrNew logger?
  cases hplace : r.place? name with
  | none => rfl
  | some place =>
    obtain ⟨logger, hlogger, hname⟩ := exists_of_place? hplace
    rw [Option.bind_some, hlogger]
    exact hname

theorem exists_firstLevel? {q : Request} (hq : q ∈ requests) :
    ∃ level, firstLevel? requests q.name = some level := by
  cases hfind : requests.find? (·.name == q.name) with
  | some first => exact ⟨first.level, by rw [firstLevel?, hfind, Option.map_some]⟩
  | none => exact absurd (List.find?_eq_none.1 hfind q hq) (by simp)

theorem firstLevel?_eq_none (hother : ∀ q : Request, q ∈ requests → q.name ≠ name) :
    firstLevel? requests name = none := by
  have hfind : requests.find? (·.name == name) = none :=
    List.find?_eq_none.2 fun q hq => by simpa using hother q hq
  rw [firstLevel?, hfind, Option.map_none]

/-- What the answers to requests tell, each of them with its request, when the requests have left a
registry. -/
structure Answers (requests : List Request) (places : List Nat) (after : Registry) : Prop where
  length_eq : places.length = requests.length
  same_iff : ∀ a ∈ requests.zip places, ∀ b ∈ requests.zip places,
    a.2 = b.2 ↔ a.1.name = b.1.name
  get?_eq : ∀ a ∈ requests.zip places, ∃ level, firstLevel? requests a.1.name = some level ∧
    after.get? a.2 = some ⟨a.1.name, level, [lineFormat]⟩

/-- However requests for loggers are interleaved, each name has a logger of its own. If it had no
handler before, it has one in the end, and the level of the first request for its name. Loggers of
other names stay as they were. -/
theorem requestAll_answers (r : Registry) (requests : List Request)
    (hbare : ∀ q ∈ requests, ∀ logger, r.logger? q.name = some logger → logger.handlers = []) :
    Answers requests (r.requestAll requests).1 (r.requestAll requests).2 ∧
      ∀ name, (∀ q : Request, q ∈ requests → q.name ≠ name) →
        (r.requestAll requests).2.logger? name = r.logger? name := by
  have hall := forall₂_requestAll r requests
  have hplace : ∀ a ∈ requests.zip (r.requestAll requests).1,
      (r.requestAll requests).2.place? a.1.name = some a.2 := fun a ha => List.forall₂_zip hall ha
  refine ⟨⟨hall.length_eq.symm, fun a ha b hb => ?_, fun a ha => ?_⟩, fun name hname => ?_⟩
  · constructor
    · intro hsame
      have hfirst := hplace a ha
      rw [hsame] at hfirst
      exact name_eq_of_place? hfirst (hplace b hb)
    · intro hname
      have hfirst := hplace a ha
      rw [hname] at hfirst
      exact Option.some.inj (hfirst.symm.trans (hplace b hb))
  · have hmem : a.1 ∈ requests := (List.of_mem_zip ha).1
    obtain ⟨level, hlevel⟩ := exists_firstLevel? hmem
    have hnone : (r.loggerOrNew a.1.name).handlers = [] := by
      unfold loggerOrNew
      cases hlogger : r.logger? a.1.name with
      | none => rfl
      | some logger => exact hbare a.1 hmem logger hlogger
    refine ⟨level, hlevel, ?_⟩
    rw [← logger?_of_place? (hplace a ha), logger?_requestAll, hlevel]
    dsimp only
    rw [Logger.setUp_of_handlers_eq_nil hnone, name_loggerOrNew]
  · rw [logger?_requestAll, firstLevel?_eq_none hname]

theorem requestAll_answers_again :
    let requests : List Request := [⟨"jobs", 10⟩, ⟨"jobs.night", 40⟩, ⟨"jobs", 50⟩]
    let r : Registry := ⟨[⟨"main", 20, [lineFormat]⟩, .new "jobs.night"]⟩
    (∀ q ∈ requests, ∀ logger, r.logger? q.name = some logger → logger.handlers = []) ∧
      (r.requestAll requests).1 = [2, 1, 2] ∧
      Answers requests [2, 1, 2] (r.requestAll requests).2 ∧
      (r.requestAll requests).2.get? 2 = some ⟨"jobs", 10, [lineFormat]⟩ ∧
      (r.requestAll requests).2.logger? "main" = r.logger? "main" := by
  intro requests r
  have hbare : ∀ q ∈ requests, ∀ logger, r.logger? q.name = some logger →
      logger.handlers = [] := by
    have hnight : r.logger? "jobs.night" = some (.new "jobs.night") := by decide +kernel
    have hjobs : r.logger? "jobs" = none := by decide +kernel
    simp [requests, hnight, hjobs, Logger.new]
  have hplaces : (r.requestAll requests).1 = [2, 1, 2] := by decide +kernel
  obtain ⟨hanswers, hothers⟩ := requestAll_answers r requests hbare
  rw [hplaces] at hanswers
  obtain ⟨level, hlevel, hlogger⟩ := hanswers.get?_eq (⟨"jobs", 50⟩, 2) (by simp [requests])
  cases hlevel
  exact ⟨hbare, hplaces, hanswers, hlogger, hothers "main" (by simp [requests])⟩

end Registry

end InfixArithmetic.Log
