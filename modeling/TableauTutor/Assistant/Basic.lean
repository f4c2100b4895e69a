import TableauTutor.Sentence.Basic

/-!
Assistants: what a person is told at the start and about mistakes. An assistant that has nothing to say leaves it to the
text that comes with the mistake.
-/

namespace TableauTutor

inductive Assistant where
  /-- gives advice -/
  | guide
  /-- wishes good luck and says no more -/
  | terse
  /-- says nothing -/
  | silent
deriving DecidableEq, Repr

namespace Assistant

/-- what is said at the start -/
def greeting : Assistant → Option (List String)
  | guide => some ["Po prostu wpisz formułę, którą chcesz zbadać. Nie musisz jej negować.", "Powodzenia!"]
  | terse => some ["<b>Logika -> Psychika</b>", "Powodzenia!"]
  | silent => none

/-- is there a collection of articles, if only an empty one -/
def hasArticles : Assistant → Bool
  | silent => false
  | _ => true

/-- about a rule that could not be used -/
def onUse (a : Assistant) (m : Mistake) : Option (List String) :=
  match a with
  | guide =>
    if m.name = "already used" then some ["<p>Ta formuła jest już rozłożona. Wybierz inną.</p>"]
    else if m.name = "cannot perform" then
      some ["<p>Nie możesz teraz usunąć tej negacji. Najpierw rozłóż inną formułę, później wróć do negacji.</p>"]
    else none
  | _ => none

/-- advice on a statement that is no formula, by the name of the mistake -/
def syntaxAdvice : List (String × String) :=
  [("no variables", "<p>Zdanie nie zawiera żadnych zmiennych. Sprawdź, czy Twoja formuła ma zmienne (np. p, a, x) " ++
      "i spójniki logiczne (np. and, or, ->).</p>"),
   ("nothing between formulas", "<p>W zdaniu znajdują się dwie zmienne lub formuły niepołączone spójnikiem. " ++
      "Sprawdź, czy między każdą parą zmiennych znajduje się spójnik.</p>"),
   ("bracket left open", "<p>Brakuje prawego nawiasu. Popraw formułę.</p>"),
   ("bracket not opened", "<p>Brakuje lewego nawiasu. Popraw formułę.</p>"),
   ("no right", "<p>Brakuje drugiej zmiennej dla spójnika and, or, lub ->, który wymaga dwóch argumentów. " ++
      "Popraw formułę.</p>"),
   ("no left", "<p>Brakuje pierwszej zmiennej dla spójnika and, or, lub ->, który wymaga dwóch argumentów. " ++
      "Popraw formułę.</p>"),
   ("no sign symbols", "<p>Wpisz tylko formułę, którą chcesz udowodnić, bez symboli sygnowania (T, F)</p>")]

/-- about a statement that is no formula -/
def onSyntax (a : Assistant) (m : Mistake) : Option (List String) :=
  match a with
  | guide => (syntaxAdvice.lookup m.name).map ([·])
  | _ => none

/-- the sentence that a mistake in a proof is about -/
def premissOf (m : Mistake) : Outcome Sentence :=
  match m.details with
  | .record fs =>
    match fs.lookup "premiss" with
    | none => throw (.missingKey "premiss")
    | some d =>
      match d.texts? with
      | some s => return s
      | none => throw (.missingPart "not a sentence")
  | _ => throw (.wrongKind "no details")

/-- about a mistake in a proof; `read` shows a sentence. Advice on precedence is kept under a name
that no mistake of the calculi has -/
def onCheck (a : Assistant) (read : Sentence → Outcome String) (m : Mistake) : Outcome (Option (List String)) :=
  match a with
  | guide =>
    if m.name = "wrong rule" then do
      return some ["<p>Nie możesz użyć wybranej reguły dla formuły " ++ (← read (← premissOf m)) ++
        ". Wybierz inną regułę.</p>"]
    else if m.name = "wrong precedense" then do
      return some ["<p>Nie możesz rozłożyć formuły " ++ (← read (← premissOf m)) ++
        " w ten sposób. Wybierz inny spójnik.</p>"]
    else return none
  | _ => return none

end Assistant

end TableauTutor
