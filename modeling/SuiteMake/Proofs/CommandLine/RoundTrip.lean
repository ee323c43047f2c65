import SuiteMake.Proofs.CommandLine.Line
import SuiteMake.Proofs.Text.Cut

/-!
# Reading command lines back

Both levels of a command line are read in the same way: after each option the level holds, once
its pending value is taken in, the values before it and the new one. So a command line is read as
what it says, in whatever form and order it says it.
-/

namespace SuiteMake

namespace Argument

theorem ofText_value {v : Text} (h : v.head? ≠ some '-' ∨ v = ['-']) : ofText v = .value v := by
  rcases h with h | rfl
  · unfold ofText
    split
    · simp at h
    · simp at h
    · rfl
  · rfl

theorem ofText_name {name : Text} (hne : name ≠ []) (heq : '=' ∉ name) :
    ofText ('-' :: '-' :: name) = .long name none := by
  have hcut : Text.cut? ['='] name = none := by
    rw [Text.cut?_eq_none_iff]
    intro hoccurs
    exact heq (hoccurs.subset List.mem_cons_self)
  simp only [ofText, if_neg hne, hcut]

theorem ofText_attached {name : Text} (heq : '=' ∉ name) (v : Text) :
    ofText ('-' :: '-' :: (name ++ '=' :: v)) = .long name (some v) := by
  have hcut : Text.cut? ['='] (name ++ '=' :: v) = some (name, v) :=
    Text.cut?_eq_some_iff.mpr ⟨rfl, Text.absent_singleton.mpr heq⟩
  have hne : name ++ '=' :: v ≠ [] := by simp
  simp only [ofText, if_neg hne, hcut]

end Argument

theorem Setting.name_legible (x : Setting) : x.name ≠ [] ∧ '=' ∉ x.name := by
  cases x <;> decide

theorem Switch.ofName?_name (level : Option Subcommand) (x : Setting) :
    ofName? level x.name = some (.setting x) := by
  cases x <;> rfl

theorem Switch.ofName?_flag {level : Option Subcommand} {name : Text}
    (h : level.bind Subcommand.flag? = some name) :
    ofName? level name = some .flag ∧ name ≠ [] ∧ '=' ∉ name := by
  cases level with
  | none => cases h
  | some s =>
      cases s with
      | generate =>
          cases h
          decide
      | recipe => cases h
      | list =>
          cases h
          decide

theorem Subcommand.word_legible (s : Subcommand) :
    Argument.ofText s.word = .value s.word ∧ ofWord? s.word = some s := by
  cases s <;> decide

namespace Level

variable {l : Level} {level : Option Subcommand} {s : Settings} {flag : Bool} {x : Setting}
  {value : Text}

/-- Once its pending value is taken in, a level holds these settings and this flag. -/
def Holds (l : Level) (s : Settings) (flag : Bool) : Prop :=
  l.settle = .ok { settings := s, flag := flag }

theorem give_eq (hfree : s.isTaken x = false) (hpath : x.isPath = true → value ≠ []) :
    give ⟨s, flag, none⟩ x value = .ok ⟨s.add x value, flag, none⟩ := by
  rw [give, if_neg (by simp [hfree]), if_neg]
  exact fun hempty => hpath hempty.1 hempty.2

theorem Holds.not_awaiting (h : l.Holds s flag) : l.pending ≠ some (x, none) := by
  intro hpending
  simp [Holds, settle, hpending] at h

theorem Holds.await (h : l.Holds s flag) (level : Option Subcommand) (x : Setting) :
    l.switch level (.setting x) none = .ok ⟨s, flag, some (x, none)⟩ := by
  rw [Holds] at h
  simp only [switch, h]
  rfl

theorem Holds.attach (h : l.Holds s flag) (hfree : s.isTaken x = false)
    (hpath : x.isPath = true → value ≠ []) :
    l.switch level (.setting x) (some value) = .ok ⟨s.add x value, flag, none⟩ := by
  rw [Holds] at h
  simp only [switch, h]
  exact give_eq hfree hpath

theorem Holds.raise (h : l.Holds s false) :
    l.switch level .flag none = .ok ⟨s, true, none⟩ := by
  rw [Holds] at h
  simp only [switch, h]
  rfl

end Level

/-- How the readers of both levels go on at an option, and at a value that is waited for. -/
structure Reader (level : Option Subcommand) {α : Type}
    (read : Level → List Text → Except Halt α) : Prop where
  value {a v : Text} {rest : List Text} {s : Settings} {flag : Bool} {x : Setting} :
    Argument.ofText a = .value v →
      read ⟨s, flag, some (x, none)⟩ (a :: rest) = read ⟨s, flag, some (x, some v)⟩ rest
  long {a name : Text} {attached : Option Text} {rest : List Text} {l l' : Level} :
    Argument.ofText a = .long name attached → l.long level name attached = .ok l' →
      read l (a :: rest) = read l' rest
  short {a cluster : Text} {letter : Char} {rest : List Text} {l l' : Level} :
    Argument.ofText a = .short letter cluster → l.short level letter cluster = .ok l' →
      read l (a :: rest) = read l' rest

theorem Invocation.reader_inner (s : Subcommand) : Reader (some s) (readInner s) where
  value h := by simp only [readInner, h]
  long h hl := by
    simp only [readInner, h, hl]
    rfl
  short h hl := by
    simp only [readInner, h, hl]
    rfl

theorem Invocation.reader_outer : Reader none readOuter where
  value h := by simp only [readOuter, h]
  long h hl := by
    simp only [readOuter, h, hl]
    rfl
  short h hl := by
    simp only [readOuter, h, hl]
    rfl

namespace Reader

variable {level : Option Subcommand} {α : Type} {read : Level → List Text → Except Halt α}
  {l : Level} {s : Settings} {flag : Bool}

private theorem awaited (hread : Reader level read) {x : Setting} {value : Text} (flag : Bool)
    (hvalue : Argument.ofText value = .value value) (hfree : s.isTaken x = false)
    (hpath : x.isPath = true → value ≠ []) :
    ∃ l', l'.Holds (s.add x value) flag ∧
      ∀ rest, read ⟨s, flag, some (x, none)⟩ (value :: rest) = read l' rest :=
  ⟨⟨s, flag, some (x, some value)⟩, Level.give_eq hfree hpath, fun _ => hread.value hvalue⟩

/-- Reading an option adds its value, in whatever form it is spelled. -/
theorem mention (hread : Reader level read) (h : l.Holds s flag) (m : Mention)
    (hfree : s.isTaken m.setting = false) :
    ∃ l', l'.Holds (s.add m.setting m.value) flag ∧
      ∀ rest, read l (m.arguments ++ rest) = read l' rest := by
  have hname := m.setting.name_legible
  have hswitch := Switch.ofName?_name level m.setting
  cases hform : m.form with
  | attached =>
      refine ⟨⟨s.add m.setting m.value, flag, none⟩, rfl, ?_⟩
      intro rest
      rw [Mention.arguments, hform]
      apply hread.long (Argument.ofText_attached hname.2 m.value)
      rw [Level.long, hswitch]
      exact h.attach hfree m.path
  | separate =>
      have hvalue := Argument.ofText_value (m.dash.resolve_left (by simp [hform]))
      obtain ⟨l', hl', hrest⟩ := hread.awaited flag hvalue hfree m.path
      refine ⟨l', hl', ?_⟩
      intro rest
      rw [Mention.arguments, hform, ← hrest]
      apply hread.long (Argument.ofText_name hname.1 hname.2)
      rw [Level.long, hswitch]
      exact h.await level m.setting
  | letter =>
      have hvalue := Argument.ofText_value (m.dash.resolve_left (by simp [hform]))
      obtain ⟨l', hl', hrest⟩ := hread.awaited flag hvalue hfree m.path
      refine ⟨l', hl', ?_⟩
      intro rest
      rw [Mention.arguments, hform, ← hrest, m.letter hform]
      have hshort : l.short level 'o' [] = .ok ⟨s, flag, some (.output, none)⟩ :=
        h.await level .output
      exact hread.short rfl hshort

theorem raise (hread : Reader level read) (h : l.Holds s false) {name : Text}
    (known : level.bind Subcommand.flag? = some name) (rest : List Text) :
    read l (('-' :: '-' :: name) :: rest) = read ⟨s, true, none⟩ rest := by
  have hname := Switch.ofName?_flag known
  apply hread.long (Argument.ofText_name hname.2.1 hname.2.2)
  rw [Level.long, hname.1]
  exact h.raise

theorem items (hread : Reader level read) (items : List (Item level)) (h : l.Holds s flag)
    (honce : ∀ x ≠ .exclude, (s.values x ++ items.flatMap (Item.values x)).length ≤ 1)
    (hflag : flag.toNat + (items.filter Item.isFlag).length ≤ 1) :
    ∃ l' s', l'.Holds s' (flag || items.any Item.isFlag) ∧
      (∀ x, s'.values x = s.values x ++ items.flatMap (Item.values x)) ∧
      ∀ rest, read l (items.flatMap Item.arguments ++ rest) = read l' rest := by
  induction items generalizing l s flag with
  | nil =>
      refine ⟨l, s, ?_, ?_, fun _ => rfl⟩
      · simpa using h
      · simp
  | cons item items ih =>
      cases item with
      | option m =>
          have hfree : s.isTaken m.setting = false := by
            rw [Bool.eq_false_iff]
            intro htaken
            obtain ⟨hx, hne⟩ := Settings.isTaken_iff.mp htaken
            have hlength := honce m.setting hx
            have hpos := List.length_pos_iff.mpr hne
            simp [Item.values] at hlength
            omega
          obtain ⟨l₁, hl₁, hread₁⟩ := hread.mention h m hfree
          have hvalues (x : Setting) : (s.add m.setting m.value).values x ++
              items.flatMap (Item.values x) =
                s.values x ++ (Item.option m :: items).flatMap (Item.values x) := by
            rw [Settings.values_add hfree, List.append_assoc]
            rfl
          obtain ⟨l', s', hl', hs', hrest⟩ := ih hl₁ (fun x hx => by rw [hvalues]; exact honce x hx)
            hflag
          refine ⟨l', s', hl', fun x => (hs' x).trans (hvalues x), ?_⟩
          intro rest
          rw [List.flatMap_cons, List.append_assoc, Item.arguments, hread₁, hrest]
      | flag name known =>
          rw [List.filter_cons_of_pos rfl, List.length_cons] at hflag
          cases flag with
          | true =>
              rw [Bool.toNat_true] at hflag
              omega
          | false =>
              have hraised : Level.Holds ⟨s, true, none⟩ s true := rfl
              have hnone : true.toNat + (items.filter Item.isFlag).length ≤ 1 := by
                rw [Bool.toNat_false] at hflag
                rw [Bool.toNat_true]
                omega
              obtain ⟨l', s', hl', hs', hrest⟩ := ih hraised honce hnone
              refine ⟨l', s', hl', hs', ?_⟩
              intro rest
              exact (hread.raise h known _).trans (hrest rest)

theorem level_of_once (hread : Reader level read) (items : List (Item level))
    (honce : ∀ x ≠ .exclude, (items.flatMap (Item.values x)).length ≤ 1)
    (hflag : (items.filter Item.isFlag).length ≤ 1) :
    ∃ l s, Level.Holds l s (items.any Item.isFlag) ∧
      (∀ x, s.values x = items.flatMap (Item.values x)) ∧
      ∀ rest, read {} (items.flatMap Item.arguments ++ rest) = read l rest := by
  have hempty (x : Setting) : Settings.values {} x = [] := by cases x <;> rfl
  have hstart : Level.Holds {} {} false := rfl
  have hlevel := hread.items items hstart (fun x hx => by rw [hempty]; exact honce x hx)
    (by rw [Bool.toNat_false, Nat.zero_add]; exact hflag)
  simp only [hempty, List.nil_append, Bool.false_or] at hlevel
  exact hlevel

end Reader

theorem Item.isFlag_outer (item : Item none) : item.isFlag = false := by
  cases item with
  | option m => rfl
  | flag name known => cases known

theorem Invocation.readOuter_word {l inner : Level} {s : Settings} {flag : Bool}
    (h : l.Holds s flag) (sub : Subcommand) {rest : List Text}
    (hinner : readInner sub {} rest = .ok inner) :
    readOuter l (sub.word :: rest) =
      .ok ⟨some (.ofSubcommand sub inner.flag), s.override inner.settings⟩ := by
  have hword := sub.word_legible
  have hsettle : l.settle = .ok { settings := s, flag := flag } := h
  simp only [readOuter, hword.1, hword.2, hinner, hsettle]
  split
  · rename_i awaiting hpending
    exact absurd hpending h.not_awaiting
  · rfl

namespace Line

variable {line : Line}

/-- A command line that gives everything once at a level is read; what is given after the
subcommand replaces what is given before it. -/
theorem Once.ofArguments (h : line.Once) :
    ∃ s, Invocation.ofArguments line.arguments = .ok ⟨line.command, s⟩ ∧ ∀ x, s.values x =
      if line.valuesAfter x = [] then line.valuesBefore x else line.valuesAfter x := by
  have hnone : line.before.filter Item.isFlag = [] := by
    rw [List.filter_eq_nil_iff]
    intro item _
    rw [item.isFlag_outer]
    exact Bool.false_ne_true
  obtain ⟨l, s, hl, hs, hread⟩ :=
    Invocation.reader_outer.level_of_once line.before h.before (by simp [hnone])
  have hsettle : l.settle = .ok { settings := s, flag := line.before.any Item.isFlag } := hl
  obtain ⟨before, after⟩ := line
  cases after with
  | none =>
      refine ⟨s, ?_, hs⟩
      rw [Invocation.ofArguments, arguments, hread]
      simp only [Invocation.readOuter, hsettle]
      rfl
  | some inner =>
      obtain ⟨sub, items⟩ := inner
      -- the level before the subcommand is settled only when the one after it has been read
      obtain ⟨l', s', hl', hs', hread'⟩ :=
        (Invocation.reader_inner sub).level_of_once items h.after h.flag
      have hinner := (hread' []).trans hl'
      rw [List.append_nil] at hinner
      refine ⟨s.override s', ?_, ?_⟩
      · rw [Invocation.ofArguments, arguments, hread]
        exact Invocation.readOuter_word hl sub hinner
      · intro x
        rw [Settings.values_override, hs', hs]
        rfl

/-- Any values can be given for some options, if those for paths are not empty. -/
private theorem exists_items (values : Setting → List Text)
    (hpaths : ∀ x, x.isPath = true → [] ∉ values x) {xs : List Setting} (hxs : xs.Nodup) :
    ∃ items : List (Item none), ∀ y, items.flatMap (Item.values y) =
      if y ∈ xs then values y else [] := by
  have hone (x : Setting) (vs : List Text) (hvs : x.isPath = true → [] ∉ vs) :
      ∃ items : List (Item none), ∀ y, items.flatMap (Item.values y) =
        if x = y then vs else [] := by
    induction vs with
    | nil => exact ⟨[], by simp⟩
    | cons v vs ih =>
        obtain ⟨items, hitems⟩ := ih fun hx hmem => hvs hx (List.mem_cons_of_mem v hmem)
        have hv : x.isPath = true → v ≠ [] := by
          intro hx hnil
          exact hvs hx (hnil ▸ List.mem_cons_self)
        refine ⟨.option ⟨x, v, .attached, by simp, Or.inl rfl, hv⟩ :: items, ?_⟩
        intro y
        rw [List.flatMap_cons, hitems]
        by_cases hxy : x = y <;> simp [Item.values, hxy]
  induction xs with
  | nil => exact ⟨[], by simp⟩
  | cons x xs ih =>
      obtain ⟨hx, hrest⟩ := List.nodup_cons.mp hxs
      obtain ⟨items, hitems⟩ := ih hrest
      obtain ⟨first, hfirst⟩ := hone x (values x) (hpaths x)
      refine ⟨first ++ items, ?_⟩
      intro y
      rw [List.flatMap_append, hfirst, hitems]
      by_cases hxy : x = y
      · subst hxy
        simp [hx]
      · simp [hxy, Ne.symm hxy]

theorem exists_spells (i : Invocation) (hpaths : ∀ x, x.isPath = true → [] ∉ i.settings.values x) :
    ∃ line : Line, line.Spells i := by
  have hall (x : Setting) : x ∈ Setting.all := by cases x <;> decide
  obtain ⟨before, hbefore⟩ := exists_items i.settings.values hpaths
    (show Setting.all.Nodup by decide)
  simp only [hall, if_true] at hbefore
  have hafter : ∃ after, (Line.mk before after).command = i.command ∧
      (Line.mk before after).flags ≤ 1 ∧ ∀ x, (Line.mk before after).valuesAfter x = [] := by
    cases i.command with
    | none => exact ⟨none, rfl, Nat.zero_le 1, fun _ => rfl⟩
    | some command =>
        cases command with
        | generate check =>
            cases check with
            | false => exact ⟨some ⟨.generate, []⟩, rfl, Nat.zero_le 1, fun _ => rfl⟩
            | true => exact ⟨some ⟨.generate, [.flag _ rfl]⟩, rfl, Nat.le_refl 1, fun _ => rfl⟩
        | recipe => exact ⟨some ⟨.recipe, []⟩, rfl, Nat.zero_le 1, fun _ => rfl⟩
        | list json =>
            cases json with
            | false => exact ⟨some ⟨.list, []⟩, rfl, Nat.zero_le 1, fun _ => rfl⟩
            | true => exact ⟨some ⟨.list, [.flag _ rfl]⟩, rfl, Nat.le_refl 1, fun _ => rfl⟩
  obtain ⟨after, hcommand, hflag, hnone⟩ := hafter
  refine ⟨⟨before, after⟩, hcommand, hflag, ?_, Or.inr (hnone .exclude)⟩
  intro x
  rw [hnone, List.append_nil]
  exact hbefore x

end Line

/-- A command line that spells an invocation is read as it, in whatever forms and order and at
whichever level it gives the values; every invocation has such a command line. Where an option is
given at both levels, the values after the subcommand replace those before it. -/
theorem command_line_round_trip :
    (∀ (line : Line) (i : Invocation), line.Spells i →
      Invocation.ofArguments line.arguments = .ok i) ∧
    (∀ i : Invocation, (∀ x, x.isPath = true → [] ∉ i.settings.values x) →
      ∃ line : Line, line.Spells i) ∧
    ∀ line : Line, line.Once →
      ∃ s, Invocation.ofArguments line.arguments = .ok ⟨line.command, s⟩ ∧ ∀ x, s.values x =
        if line.valuesAfter x = [] then line.valuesBefore x else line.valuesAfter x := by
  refine ⟨?_, Line.exists_spells, fun _ h => h.ofArguments⟩
  intro line i h
  obtain ⟨s, hread, hvalues⟩ := h.once.ofArguments
  have hsettings : s = i.settings :=
    Settings.eq_of_values fun x => (hvalues x).trans (h.values_eq x).symm
  rw [hread, hsettings, h.command]

namespace Sample

/-- Values that look like a subcommand, a dash and an option, and an empty one. -/
def spelled : Line where
  before := [
    .option { setting := .root, value := "generate".toList, form := .separate },
    .option { setting := .output, value := ['-'], form := .letter }]
  after := some ⟨.list, [
    .option { setting := .exclude, value := "--x=1".toList, form := .attached },
    .flag "json".toList rfl,
    .option { setting := .casePrefix, value := [], form := .separate },
    .option { setting := .exclude, value := "w32".toList, form := .separate }]⟩

def spelledInvocation : Invocation where
  command := some (.list true)
  settings := {
    root := some ⟨"generate".toList⟩
    output := some ⟨['-']⟩
    exclude := ["--x=1".toList, "w32".toList]
    casePrefix := some [] }

/-- Options of which some are given at both levels. -/
def replacing : Line where
  before := [
    .option { setting := .root, value := "a".toList, form := .attached },
    .option { setting := .exclude, value := "x".toList, form := .separate },
    .option { setting := .casePrefix, value := "P".toList, form := .separate },
    .option { setting := .exclude, value := "y".toList, form := .attached }]
  after := some ⟨.recipe, [
    .option { setting := .exclude, value := "z".toList, form := .separate },
    .option { setting := .root, value := "b".toList, form := .separate }]⟩

def replacingSettings : Settings where
  root := some ⟨"b".toList⟩
  exclude := ["z".toList]
  casePrefix := some "P".toList

theorem spelled_spells : spelled.Spells spelledInvocation where
  command := rfl
  flag := by decide
  values x := by cases x <;> rfl
  exclude := by decide

theorem replacing_once : replacing.Once where
  before x hx := by cases x <;> first | exact absurd rfl hx | decide
  after x _ := by cases x <;> decide
  flag := by decide

end Sample

theorem command_line_round_trip_spelled :
    Sample.spelled.Spells Sample.spelledInvocation ∧ Sample.replacing.Once ∧
    Invocation.ofArguments ["--root".toList, "generate".toList, "-o".toList, "-".toList,
      "list".toList, "--exclude=--x=1".toList, "--json".toList, "--prefix".toList, [],
      "--exclude".toList, "w32".toList] = .ok Sample.spelledInvocation ∧
    Invocation.ofArguments ["--root=a".toList, "--exclude".toList, "x".toList, "--prefix".toList,
      "P".toList, "--exclude=y".toList, "recipe".toList, "--exclude".toList, "z".toList,
      "--root".toList, "b".toList] = .ok ⟨some .recipe, Sample.replacingSettings⟩ := by
  refine ⟨Sample.spelled_spells, Sample.replacing_once, ?_, ?_⟩
  · exact command_line_round_trip.1 Sample.spelled _ Sample.spelled_spells
  · obtain ⟨s, hread, hvalues⟩ := command_line_round_trip.2.2 Sample.replacing Sample.replacing_once
    have hs : s = Sample.replacingSettings := by
      apply Settings.eq_of_values
      intro x
      rw [hvalues]
      cases x <;> rfl
    rw [← hs]
    exact hread

end SuiteMake
