import IdlGen.Proofs.Lisp.Rebuilding
import IdlGen.Proofs.Schema.Essence

/-!
# What a run of the Lisp backend does not look at

A program and its essence are generated alike, step for step: what goes into a form, or into an error,
is still there in the essence. Hence nothing that the essence leaves out can be told from the streams or
from how a run ends.
-/

namespace IdlGen

namespace Lisp

open EmitError (Respelled)

/-! ### Names -/

@[simp] theorem packageOf_essence (info : ProgramInfo) :
    packageOf (info.essence language) = packageOf info := by
  rw [packageOf, packageOf, ProgramInfo.namespaceFor_essence]

@[simp] theorem packageOf_essenceOfInclude (info : ProgramInfo) :
    packageOf (info.essenceOfInclude language) = packageOf info := packageOf_essence info

theorem qualify_essence (name : String) (owner : Option ProgramInfo) (current : ProgramInfo) :
    qualify name (owner.map (ProgramInfo.essence language)) (current.essence language) =
      qualify name owner current := by
  cases owner with
  | none => rfl
  | some owner => simp only [Option.map_some, qualify, ProgramInfo.name_essence, packageOf_essence]

/-! ### Types and literals -/

theorem neutral_essence (current : ProgramInfo) :
    (Rebuilding.essence language).Neutral current (current.essence language) where
  enum_name _ := rfl
  record_name _ := rfl
  recordName d := qualify_essence _ d.owner current
  fields d := by
    change List.Forall₂ _ d.fields (d.fields.map _)
    rw [List.forall₂_map_right_iff, List.forall₂_same]
    intro f hf
    exact ⟨rfl, rfl⟩
  typedef _ := .inr ⟨_, rfl, rfl⟩

/-- Even the errors are the same, because all names that they can hold are kept. -/
theorem discreet_essence (current : ProgramInfo) :
    Discreet Eq current (current.essence language) (Ty.essence language) := by
  have hdiscreet := discreet_rebuild (neutral_essence current)
  refine ⟨hdiscreet.typespec, fun t v => (hdiscreet.literal t v).imp ?_⟩
  intro e e' hspelled
  cases hspelled with
  | same => rfl
  | @container t ht found => rw [← Ty.describe_essence language t, Ty.essence]

variable (info : ProgramInfo)

/-! ### Forms -/

theorem methodClause_essence (m : Method) :
    methodClause (info.essence language) (m.essence language) = methodClause info m := by
  have hdiscreet := discreet_essence info
  have hargument : argument (info.essence language) ∘ FieldOf.essenceOfArgument language =
      argument info :=
    funext fun f => argument_map hdiscreet rfl rfl rfl
  have hargs : argumentList (info.essence language) (m.essence language).args =
      argumentList info m.args := by
    rw [Method.essence, argumentList, List.map_map, hargument, argumentList]
  have hexceptions : exceptionsLine (info.essence language) (m.essence language).exceptions =
      exceptionsLine info m.exceptions :=
    (exceptionsLine_map hdiscreet m.exceptions).eq.symm
  have hreturns : typespec (info.essence language) (m.essence language).returns =
      typespec info m.returns :=
    hdiscreet.typespec m.returns
  rw [methodClause, methodClause, hargs, hexceptions, hreturns]
  rfl

theorem serviceForm_essence (s : Service) :
    serviceForm (info.essence language) (s.essence language) = serviceForm info s := by
  have hmethods : (s.essence language).methods.mapM (methodClause (info.essence language)) =
      s.methods.mapM (methodClause info) := by
    rw [Service.essence, List.mapM_map]
    congr 1
    exact funext (methodClause_essence info)
  have hbase : baseName (info.essence language) (s.essence language).base =
      baseName info s.base := by
    rw [Service.essence]
    cases s.base with
    | none => rfl
    | some base => exact congrArg symbol (qualify_essence base.name base.owner info)
  rw [serviceForm, serviceForm, hmethods, hbase]
  rfl

theorem recordForm_essence (kind : RecordKind) (d : Record) :
    recordForm (info.essence language) kind
        { name := d.name
          owner := d.owner.map (ProgramInfo.essence language)
          fields := d.fields.map (FieldOf.map (Ty.essence language))
          doc := d.doc } =
      recordForm info kind d := by
  have hfields := (fieldList_map (discreet_essence info) d.fields).eq
  simp only [recordForm, ← hfields, recordName, qualify_essence]

/-- A declaration has the form of its essence. -/
theorem form_essence (d : Definition) :
    form (info.essence language) (d.essence language) = form info d := by
  cases d with
  | typedef d | enum d => rfl
  | record kind d => exact recordForm_essence info kind d
  | service s => exact serviceForm_essence info s
  | constant c => exact (constantForm_map (discreet_essence info) c).eq.symm

theorem stream?_essence (d : Definition) : (d.essence language).stream? = d.stream? := by
  cases d <;> rfl

/-! ### Runs -/

variable {σ : Type} [Carrier σ]

theorem usedPackages_essence (own : String) (includes : List ProgramInfo) :
    usedPackages own (includes.map (ProgramInfo.essenceOfInclude language)) =
      usedPackages own includes := by
  simp only [usedPackages, List.foldl_map, packageOf_essenceOfInclude]

theorem startFiles_essence (p : Program) :
    startFiles (p.essence language) = (startFiles p : Step σ Unit) := by
  have hpackage : packageOf (p.essence language).info = packageOf p.info := packageOf_essence p.info
  have hused : usedPackages (packageOf p.info) (p.essence language).includes =
      usedPackages (packageOf p.info) p.includes := usedPackages_essence _ p.includes
  have hform : packageForm (p.essence language) = packageForm p := by
    simp only [packageForm, hpackage, hused]
  simp only [startFiles, hpackage, hform]

theorem declaration_essence (p : Program) (d : Definition) :
    (backend : Backend σ).declaration (p.essence language) (d.essence language) =
      (backend : Backend σ).declaration p d := by
  cases hstream : d.stream? with
  | none =>
    rw [declaration_of_none _ hstream, declaration_of_none _ ((stream?_essence d).trans hstream)]
  | some stream =>
    rw [declaration_of_stream _ hstream,
      declaration_of_stream _ ((stream?_essence d).trans hstream), ← form_essence p.info d]
    rfl

theorem declarations_essence (p : Program) (ds : List Definition) :
    (backend : Backend σ).declarations (p.essence language) (ds.map (Definition.essence language)) =
      (backend : Backend σ).declarations p ds := by
  induction ds with
  | nil => rfl
  | cons d ds ih => rw [List.map_cons, Backend.declarations, Backend.declarations,
      declaration_essence, ih]

theorem generate_essence (p : Program) :
    (backend : Backend σ).generate (p.essence language) = (backend : Backend σ).generate p := by
  have hstart : (backend : Backend σ).start (p.essence language) = (backend : Backend σ).start p :=
    startFiles_essence p
  have hdeclarations : (backend : Backend σ).declarations (p.essence language)
      (p.essence language).definitions = (backend : Backend σ).declarations p p.definitions :=
    declarations_essence p p.definitions
  rw [Backend.generate, hstart, hdeclarations]
  rfl

/-- Programs that differ only in what their essence leaves out are generated alike: begun in the same
state, on streams with or without limits, both runs leave the same bytes, and both end with success or
with the same error. -/
theorem generate_eq_of_essence {p q : Program} (h : p.essence language = q.essence language)
    (s : σ) : (backend : Backend σ).generate p s = (backend : Backend σ).generate q s := by
  rw [← generate_essence p, ← generate_essence q, h]

/-- A shop that calls itself by a namespace for another language, and one for no use in this. -/
def shopForAll : ProgramInfo :=
  (ProgramInfo.withNamespace { name := "shop" } "py" "shop").withNamespace "cl" ""

def money : ProgramInfo := ProgramInfo.withNamespace { name := "money" } "cl" "money"

def moneyForAll : ProgramInfo := money.withNamespace "py" "cash"

/-- The shop with defaults, documentation, and a base service with methods and a base of its own. -/
def documentedShop : Program :=
  let coin : EnumDef :=
    { name := "Coin", owner := some money, labels := [⟨"Penny", some 1⟩, ⟨"Dime", some 10⟩] }
  let price : Record :=
    { name := "Price", owner := some moneyForAll, doc := some "What is paid."
      fields := [{ id := 7, name := "amount", type := .base .i32, default := some (.integer 1) }] }
  let base : Service :=
    { name := "Audit", owner := some moneyForAll, base := some { name := "Root" }
      methods := [{ name := "watch", returns := .base .void }], doc := some "Keeps watch." }
  let sell : Method :=
    { name := "sell", returns := .enum coin, doc := some "Sells."
      args :=
        [{ id := 1, name := "price", type := .record .struct price, default := some (.map [])
           doc := some "Asked for." }] }
  { info := shopForAll
    includes := [moneyForAll]
    definitions :=
      [.typedef { name := "Till", target := .list (.enum coin), doc := some "Where coins go." },
        .service { name := "Shop", owner := some shopForAll, base := some base, methods := [sell] },
        .constant
          { name := "FLOAT", type := .record .struct price, value := .map [(.string "sum", .integer 1)]
            doc := some "There is no such field." }] }

/-- The shop without what is lost on this language. -/
def plainShop : Program :=
  let coin : EnumDef := { name := "Coin" }
  let price : Record :=
    { name := "Price", owner := some money
      fields := [{ id := 1, name := "amount", type := .base .i32 }] }
  let base : Service := { name := "Audit", owner := some money }
  let sell : Method :=
    { name := "sell", returns := .enum coin
      args := [{ id := 1, name := "price", type := .record .struct price }] }
  { info := { name := "shop" }
    includes := [{ money with name := "cash" }]
    definitions :=
      [.typedef { name := "Till", target := .list (.enum coin) },
        .service
          { name := "Shop", owner := some { name := "shop" }, base := some base, methods := [sell] },
        .constant
          { name := "FLOAT", type := .record .struct price
            value := .map [(.string "sum", .integer 1)] }] }

/-- Two shops that differ in all that can differ. The constant of both is refused. -/
theorem generate_eq_of_essence_shop :
    documentedShop.essence language = plainShop.essence language ∧
      (backend : Backend Sink).generate documentedShop {} =
        (backend : Backend Sink).generate plainShop {} := by
  have hsame : documentedShop.essence language = plainShop.essence language := rfl
  exact ⟨hsame, generate_eq_of_essence (σ := Sink) hsame {}⟩

end Lisp

end IdlGen
