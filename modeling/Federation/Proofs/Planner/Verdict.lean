import Federation.Planner.Native

/-!
# Every Choice Has One Verdict

A choice looks for a name that every table's list holds, the least of them, and then for
all that bear it in whatever list. What it comes to is said here without the lists being
gone through: a name wins or none does, and the winner stands for one connector or for
several. Each of the three outcomes excludes the others, so there is one verdict on every
choice, and it is the one that is given.

Nothing in a verdict tells in which place of a list a connector stands, or how often, so
neither makes a difference to the choice.

## Main definitions

* `Offers`: A connector is offered for some table.
* `Common`, `Wins`: A name occurs in every list, and is the least that does.
* `Verdict`: What a choice comes to.
* `SameOffers`: The same connectors are offered for the same tables.

## Theorems

* `mem_commonNames`: Common names are those that occur in every list.
* `Verdict.unique`: There is one verdict.
* `choose_eq_iff`: A choice is its verdict.
* `choose_eq_ok`: When it succeeds, and with which connector.
* `choose_of_sameOffers`: It depends on what is offered for each table and nothing else.
* `choose_decides`: The two together.
* `choose_relisted`: Two definitions of one name, listed in two ways.
-/

namespace Federation

/-! ### Common names -/

/-- Common names are those that occur in every one of the lists, of which there
    must be one. -/
theorem mem_commonNames (lists : List (List Connector)) (name : ConnectorName) :
    name ∈ commonNames lists ↔ lists ≠ [] ∧ ∀ l ∈ lists, ∃ c ∈ l, c.name = name := by
  cases lists with
  | nil => exact ⟨fun h => absurd h List.not_mem_nil, fun h => absurd rfl h.1⟩
  | cons first others =>
      have hany : ∀ l : List Connector, (l.any fun c => c.name == name) = true ↔
          ∃ c ∈ l, c.name = name := fun l => by
        rw [List.any_eq_true]
        exact exists_congr fun c => and_congr_right fun _ => beq_iff_eq
      unfold commonNames
      rw [List.mem_filter, mem_ascending, List.mem_map, List.all_eq_true, List.forall_mem_cons]
      constructor
      · rintro ⟨hfirst, hothers⟩
        exact ⟨List.cons_ne_nil _ _, hfirst, fun l hl => (hany l).mp (hothers l hl)⟩
      · rintro ⟨_, hfirst, hothers⟩
        exact ⟨hfirst, fun l hl => (hany l).mpr (hothers l hl)⟩

theorem commonNames_ascending (lists : List (List Connector)) :
    Ascending (commonNames lists) := by
  cases lists with
  | nil => exact List.Pairwise.nil
  | cons first others => exact (ascending_pairwise _).filter _

-- A common name is borne by some connector.
theorem exists_of_common (lists : List (List Connector)) (name : ConnectorName)
    (h : name ∈ commonNames lists) : ∃ c ∈ lists.flatten, c.name = name := by
  rcases (mem_commonNames lists name).mp h with ⟨hne, hall⟩
  rcases List.exists_mem_of_ne_nil _ hne with ⟨l, hl⟩
  rcases hall l hl with ⟨c, hc, hname⟩
  exact ⟨c, List.mem_flatten.mpr ⟨l, hl, hc⟩, hname⟩

/-! ### Verdicts -/

/-- Whether a connector is offered for some table. -/
def Offers (found : Candidates) (c : Connector) : Prop :=
  ∃ table l, found.get? table = some l ∧ c ∈ l

/-- Whether a connector of a name is offered for every table. -/
def Common (found : Candidates) (name : ConnectorName) : Prop :=
  ∀ table l, found.get? table = some l → ∃ c ∈ l, c.name = name

/-- Whether a name is the least of those that occur in every list, of which there is at
    least one. -/
structure Wins (found : Candidates) (name : ConnectorName) : Prop where
  tables : found.keys ≠ []
  common : Common found name
  least : ∀ other, Common found other → compare name other ≠ .gt

/-- What a choice comes to. -/
inductive Verdict (found : Candidates) : Except PlanningCause Connector → Prop
  /-- There is no table, or no name that all lists have in common. -/
  | nobody (h : found.keys = [] ∨ ∀ name, ¬Common found name) :
      Verdict found (.error (.noCommonConnector found.keys none))
  /-- Whatever bears the winning name is one connector. -/
  | sole (c : Connector) (hwins : Wins found c.name)
      (hsole : ∀ d, Offers found d → d.name = c.name → d = c) : Verdict found (.ok c)
  /-- Connectors that differ bear the winning name, at these addresses. -/
  | several (name : ConnectorName) (handles : List Handle) (c d : Connector)
      (hwins : Wins found name) (hc : Offers found c) (hd : Offers found d)
      (hcname : c.name = name) (hdname : d.name = name) (hne : c ≠ d)
      (hascending : Ascending handles)
      (hhandles : ∀ a, a ∈ handles ↔ ∃ e, Offers found e ∧ e.name = name ∧ e.handle = a) :
      Verdict found (.error (.ambiguousChoice name handles))

/-- Whether the same connectors are offered for the same tables, in whatever order and
    however often. -/
structure SameOffers (found found' : Candidates) : Prop where
  keys_eq : found.keys = found'.keys
  mem_iff : ∀ table l l', found.get? table = some l → found'.get? table = some l' →
    ∀ c, c ∈ l ↔ c ∈ l'

-- What is offered is found in some list.
theorem offers_iff (found : Candidates) (c : Connector) :
    Offers found c ↔ c ∈ found.values.flatten := by
  unfold Offers
  rw [List.mem_flatten]
  constructor
  · rintro ⟨table, l, hl, hc⟩
    exact ⟨l, (SortedMap.mem_values _ l).mpr ⟨table, hl⟩, hc⟩
  · rintro ⟨l, hl, hc⟩
    rcases (SortedMap.mem_values _ l).mp hl with ⟨table, hl⟩
    exact ⟨table, l, hl, hc⟩

theorem mem_commonNames_iff (found : Candidates) (name : ConnectorName) :
    name ∈ commonNames found.values ↔ found.keys ≠ [] ∧ Common found name := by
  have hempty : found.values = [] ↔ found.keys = [] := by
    rw [SortedMap.values, SortedMap.keys, List.map_eq_nil_iff, List.map_eq_nil_iff]
  rw [mem_commonNames, ne_eq, hempty]
  refine and_congr_right fun _ => ⟨fun h table l hl => ?_, fun h l hl => ?_⟩
  · exact h l ((SortedMap.mem_values _ l).mpr ⟨table, hl⟩)
  · rcases (SortedMap.mem_values _ l).mp hl with ⟨table, hl⟩
    exact h table l hl

/-- The name that wins is the first of those that all lists have in common. -/
theorem wins_of_commonNames (found : Candidates) (name : ConnectorName)
    (rest : List ConnectorName) (h : commonNames found.values = name :: rest) :
    Wins found name := by
  have hascending := commonNames_ascending found.values
  have hmem := mem_commonNames_iff found name
  rw [h] at hascending hmem
  rcases hmem.mp List.mem_cons_self with ⟨htables, hcommon⟩
  refine ⟨htables, hcommon, fun other hother => hascending.head_least other ?_⟩
  rw [← h]
  exact (mem_commonNames_iff found other).mpr ⟨htables, hother⟩

-- Names of which neither is greater are the same.
theorem name_antisymm {n m : ConnectorName} (hn : compare n m ≠ .gt) (hm : compare m n ≠ .gt) :
    n = m := by
  cases hcompare : compare n m with
  | lt => exact absurd (Std.OrientedCmp.gt_of_lt hcompare) hm
  | eq => exact Std.LawfulEqOrd.eq_of_compare hcompare
  | gt => exact absurd hcompare hn

theorem Wins.unique {found : Candidates} {n m : ConnectorName} (hn : Wins found n)
    (hm : Wins found m) : n = m :=
  name_antisymm (hn.least m hm.common) (hm.least n hn.common)

-- Some connector bears the winning name.
theorem Wins.exists_offer {found : Candidates} {name : ConnectorName} (h : Wins found name) :
    ∃ c, Offers found c ∧ c.name = name := by
  have hcommon := (mem_commonNames_iff found name).mpr ⟨h.tables, h.common⟩
  rcases exists_of_common found.values name hcommon with ⟨c, hc, hname⟩
  exact ⟨c, (offers_iff found c).mpr hc, hname⟩

-- Where a name wins there are tables, and names in common.
theorem Wins.not_nobody {found : Candidates} {name : ConnectorName} (h : Wins found name) :
    ¬(found.keys = [] ∨ ∀ name, ¬Common found name) := by
  rintro (htables | hnone)
  · exact h.tables htables
  · exact hnone name h.common

/-- There is one verdict on a choice. -/
theorem Verdict.unique {found : Candidates} {r r' : Except PlanningCause Connector}
    (h : Verdict found r) (h' : Verdict found r') : r = r' := by
  cases h with
  | nobody hnobody =>
      cases h' with
      | nobody _ => rfl
      | sole _ hwins _ => exact absurd hnobody hwins.not_nobody
      | several _ _ _ _ hwins _ _ _ _ _ _ _ => exact absurd hnobody hwins.not_nobody
  | sole c hwins hsole =>
      cases h' with
      | nobody hnobody => exact absurd hnobody hwins.not_nobody
      | sole c' hwins' hsole' =>
          rcases hwins.exists_offer with ⟨d, hd, hname⟩
          rw [← hsole d hd hname, ← hsole' d hd (hname.trans (hwins.unique hwins'))]
      | several name _ d e hwins' hd he hdname hename hne _ _ =>
          have hname := hwins'.unique hwins
          exact absurd ((hsole d hd (hdname.trans hname)).trans
            (hsole e he (hename.trans hname)).symm) hne
  | several name handles d e hwins hd he hdname hename hne hasc hhandles =>
      cases h' with
      | nobody hnobody => exact absurd hnobody hwins.not_nobody
      | sole c hwins' hsole =>
          have hname := hwins.unique hwins'
          exact absurd ((hsole d hd (hdname.trans hname)).trans
            (hsole e he (hename.trans hname)).symm) hne
      | several name' handles' _ _ hwins' _ _ _ _ _ hasc' hhandles' =>
          cases hwins.unique hwins'
          rw [hasc.ext hasc' fun a => (hhandles a).trans (hhandles' a).symm]

-- A connector that is not like the others is among them.
theorem exists_ne_of_all_eq_false (others : List Connector) (chosen : Connector)
    (h : (others.all fun d => d == chosen) = false) : ∃ d ∈ others, d ≠ chosen := by
  rcases List.all_eq_false.mp h with ⟨d, hd, hne⟩
  exact ⟨d, hd, fun heq => hne (beq_iff_eq.mpr heq)⟩

/-- The verdict on a choice is given. -/
theorem choose_verdict (found : Candidates) : Verdict found (choose found) := by
  cases hnames : commonNames found.values with
  | nil =>
      have hnobody : found.keys = [] ∨ ∀ name, ¬Common found name := by
        by_cases htables : found.keys = []
        · exact Or.inl htables
        · refine Or.inr fun name hcommon => ?_
          have hmem := (mem_commonNames_iff found name).mpr ⟨htables, hcommon⟩
          rw [hnames] at hmem
          exact absurd hmem List.not_mem_nil
      unfold choose
      rw [hnames]
      exact Verdict.nobody hnobody
  | cons winner rest =>
      have hwins := wins_of_commonNames found winner rest hnames
      have hmem : ∀ d, d ∈ found.values.flatten.filter (fun d => d.name == winner) ↔
          Offers found d ∧ d.name = winner := fun d => by
        rw [List.mem_filter, beq_iff_eq, offers_iff]
      unfold choose
      rw [hnames]
      simp only
      cases hentries : found.values.flatten.filter fun d => d.name == winner with
      | nil =>
          rcases hwins.exists_offer with ⟨c, hc⟩
          have hentry := (hmem c).mpr hc
          rw [hentries] at hentry
          exact absurd hentry List.not_mem_nil
      | cons chosen others =>
          rw [hentries] at hmem
          rcases (hmem chosen).mp List.mem_cons_self with ⟨hoffered, hname⟩
          simp only
          by_cases hall : (others.all fun d => d == chosen) = true
          · rw [if_pos hall]
            refine Verdict.sole chosen (hname ▸ hwins) fun d hd hdname => ?_
            rcases List.mem_cons.mp ((hmem d).mpr ⟨hd, hdname.trans hname⟩) with heq | hd
            · exact heq
            · exact beq_iff_eq.mp (List.all_eq_true.mp hall d hd)
          · rw [if_neg hall]
            rcases exists_ne_of_all_eq_false others chosen (eq_false_of_ne_true hall) with
              ⟨d, hd, hne⟩
            rcases (hmem d).mp (List.mem_cons_of_mem _ hd) with ⟨hdoffered, hdname⟩
            refine Verdict.several winner _ d chosen hwins hdoffered hoffered hdname hname hne
              (ascending_pairwise _) fun a => ?_
            rw [mem_ascending, List.mem_map]
            simp only [hmem, and_assoc]

/-- A choice is its verdict. -/
theorem choose_eq_iff (found : Candidates) (r : Except PlanningCause Connector) :
    choose found = r ↔ Verdict found r :=
  ⟨fun h => h ▸ choose_verdict found, fun h => (choose_verdict found).unique h⟩

/-- A choice succeeds exactly with a connector whose name wins, if it is the only one of
    that name. -/
theorem choose_eq_ok (found : Candidates) (c : Connector) :
    choose found = .ok c ↔
      Wins found c.name ∧ ∀ d, Offers found d → d.name = c.name → d = c := by
  rw [choose_eq_iff]
  constructor
  · intro h
    cases h with
    | sole _ hwins hsole => exact ⟨hwins, hsole⟩
  · exact fun ⟨hwins, hsole⟩ => Verdict.sole c hwins hsole

/-! ### Lists of the same connectors -/

namespace SameOffers

variable {found found' : Candidates}

theorem symm (h : SameOffers found found') : SameOffers found' found :=
  ⟨h.keys_eq.symm, fun table l l' hl hl' c => (h.mem_iff table l' l hl' hl c).symm⟩

-- The lists of one table have the same members.
theorem exists_list (h : SameOffers found found') (table : TableName) (l : List Connector)
    (hl : found.get? table = some l) :
    ∃ l', found'.get? table = some l' ∧ ∀ c, c ∈ l ↔ c ∈ l' := by
  have hkey : table ∈ found.keys :=
    List.mem_map.mpr ⟨(table, l), (SortedMap.get?_eq_some _ _ _).mp hl, rfl⟩
  rw [h.keys_eq] at hkey
  rcases List.mem_map.mp hkey with ⟨⟨_, l'⟩, hentry, rfl⟩
  have hl' := (SortedMap.get?_eq_some _ _ _).mpr hentry
  exact ⟨l', hl', h.mem_iff _ l l' hl hl'⟩

theorem offers (h : SameOffers found found') {c : Connector} (hc : Offers found c) :
    Offers found' c := by
  rcases hc with ⟨table, l, hl, hmem⟩
  rcases h.exists_list table l hl with ⟨l', hl', hiff⟩
  exact ⟨table, l', hl', (hiff c).mp hmem⟩

theorem offers_iff (h : SameOffers found found') (c : Connector) :
    Offers found c ↔ Offers found' c :=
  ⟨h.offers, h.symm.offers⟩

theorem common (h : SameOffers found found') {name : ConnectorName} (hname : Common found name) :
    Common found' name := by
  intro table l' hl'
  rcases h.symm.exists_list table l' hl' with ⟨l, hl, hiff⟩
  rcases hname table l hl with ⟨c, hc, hcname⟩
  exact ⟨c, (hiff c).mpr hc, hcname⟩

theorem wins (h : SameOffers found found') {name : ConnectorName} (hname : Wins found name) :
    Wins found' name :=
  ⟨h.keys_eq ▸ hname.tables, h.common hname.common,
    fun other hother => hname.least other (h.symm.common hother)⟩

/-- A verdict tells neither the places of connectors nor how often they are listed. -/
theorem verdict (h : SameOffers found found') {r : Except PlanningCause Connector}
    (hr : Verdict found r) : Verdict found' r := by
  cases hr with
  | nobody hnobody =>
      rw [h.keys_eq] at hnobody ⊢
      refine Verdict.nobody (hnobody.imp_right fun hnone name hname => ?_)
      exact hnone name (h.symm.common hname)
  | sole c hwins hsole =>
      exact Verdict.sole c (h.wins hwins) fun d hd => hsole d (h.symm.offers hd)
  | several name handles c d hwins hc hd hcname hdname hne hasc hhandles =>
      refine Verdict.several name handles c d (h.wins hwins) (h.offers hc) (h.offers hd) hcname
        hdname hne hasc fun a => ?_
      rw [hhandles]
      simp only [h.offers_iff]

-- Lists may be rewritten as long as their members stay.
theorem of_mapValues (found : Candidates) (f : List Connector → List Connector)
    (hf : ∀ l c, c ∈ f l ↔ c ∈ l) : SameOffers found (found.mapValues f) := by
  constructor
  case keys_eq =>
    rw [SortedMap.keys, SortedMap.keys, SortedMap.mapValues, List.map_map]
    rfl
  case mem_iff =>
    intro table l l' hl hl' c
    rcases List.mem_map.mp ((SortedMap.get?_eq_some _ _ _).mp hl') with ⟨⟨_, m⟩, hm, heq⟩
    cases heq
    have hm := (SortedMap.get?_eq_some found _ m).mpr hm
    rw [hl] at hm
    cases hm
    exact (hf l c).symm

end SameOffers

/-- A choice depends on what is offered for each table, and on nothing else. -/
theorem choose_of_sameOffers (found found' : Candidates) (h : SameOffers found found') :
    choose found = choose found' :=
  ((choose_eq_iff found' _).mpr (h.verdict (choose_verdict found))).symm

/-- A choice fails for all its tables if there are none, or no name that all their lists
    have in common; it is the connector of the least common name if all that is offered
    under this name is that connector; and otherwise it fails on the name, with the
    addresses of all that is offered under it. Rearranging a list, or repeating some of its
    connectors, makes no difference. -/
theorem choose_decides (found : Candidates) :
    (∀ r, choose found = r ↔ Verdict found r) ∧
      ∀ found', SameOffers found found' → choose found = choose found' :=
  ⟨choose_eq_iff found, choose_of_sameOffers found⟩

/-- Connectors for two tables: the least name is offered for one of them only, and the next
    stands for two connectors. -/
def twiceDefined : Candidates :=
  let here : Connector := ⟨⟨"b"⟩, .ofList [.scan], [⟨"east"⟩], ⟨"here"⟩⟩
  let there : Connector := ⟨⟨"b"⟩, .ofList [.scan], [⟨"east"⟩], ⟨"there"⟩⟩
  let first : Connector := ⟨⟨"a"⟩, .ofList [.scan], [⟨"east"⟩], ⟨"here"⟩⟩
  .ofList [(⟨⟨"shop"⟩, "users"⟩, [there]), (⟨⟨"shop"⟩, "orders"⟩, [here, first])]

/-- Either way of listing them is refused, with both addresses. -/
theorem choose_relisted :
    SameOffers twiceDefined (twiceDefined.mapValues fun l => l.reverse ++ l) ∧
      choose (twiceDefined.mapValues fun l => l.reverse ++ l) = choose twiceDefined ∧
        Verdict twiceDefined (.error (.ambiguousChoice ⟨"b"⟩ [⟨"here"⟩, ⟨"there"⟩])) := by
  have hsame : SameOffers twiceDefined (twiceDefined.mapValues fun l => l.reverse ++ l) :=
    SameOffers.of_mapValues _ _ fun l c => by rw [List.mem_append, List.mem_reverse, or_self_iff]
  refine ⟨hsame, ((choose_decides twiceDefined).2 _ hsame).symm, ?_⟩
  exact ((choose_decides twiceDefined).1 _).mp rfl

end Federation
