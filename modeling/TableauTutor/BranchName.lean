/-!
Names of branches: colours first, as far as the person can tell them apart, then plants.
-/

namespace TableauTutor

/-- a colour that gives a branch its name; the level says how well colours have to be told apart for it to be used -/
structure Colour where
  name : String
  rgb : String
  brightText : Bool
  level : Int
deriving DecidableEq, Repr

namespace Colour

def table : List Colour :=
  [⟨"Czerwona", "#cd0032", true, 3⟩, ⟨"Zielona", "#00700e", true, 3⟩, ⟨"Niebieska", "#3254d2", true, 1⟩,
   ⟨"Fioletowa", "#911eb4", true, 4⟩, ⟨"Turkusowa", "#156f82", false, 3⟩, ⟨"Magenta", "#b900af", true, 3⟩,
   ⟨"Morska", "#077267", true, 3⟩, ⟨"Brązowa", "#975101", true, 3⟩, ⟨"Bordowa", "#800000", true, 2⟩,
   ⟨"Oliwkowa", "#696901", true, 4⟩, ⟨"Morelowa", "#ffd8b1", false, 4⟩, ⟨"Granatowa", "#000075", true, 2⟩,
   ⟨"Biała", "#ffffff", false, 1⟩, ⟨"Szara", "#a9a9a9", true, 1⟩]

/-- the colour where there is no branch, or none with a colour for its name -/
def black : Colour := ⟨"Czarna", "#000000", true, 1⟩

/-- the colour that a branch is named for -/
def ofBranch (branch : String) : Colour := (table.find? (·.name == branch)).getD black

/-- the colours up to a level -/
def upTo (level : Int) : List Colour := table.filter (·.level ≤ level)

end Colour

/-- names for when colours run out -/
def plants : List String :=
  ["Brzoza", "Pierwiosnka", "Przewiercień", "Tojad", "Jaskier", "Jeżogłówka", "Dąb", "Kruszczyk", "Mannica",
    "Malina", "Traganek", "Języczka", "Storzan", "Perłówka", "Wełnianeczka", "Dzwonek", "Przygiełka", "Mieczyk",
    "Szafirek", "Buławnik", "Chamedafne", "Macierzanka", "Sierpik", "Babka", "Stoplamek", "Saussurea", "Wywłócznik",
    "Karmnik", "Rozchodnik", "Zaraza", "Zanokcica", "Ponikło", "Rzeżucha", "Czosnek", "Łoboda", "Rdestnica",
    "Kaldezja", "Storczyk", "Irga", "Kiksja", "Widlicz", "Aldrowanda", "Szachownica", "Ostnica", "Zmienka",
    "Przesiąkra", "Wątlik", "Jarząb", "Miodokwiat", "Tłustosz", "Wełnianka", "Bylica", "Oman", "Ciemiężyca",
    "Żmijowiec", "Wierzba", "Cebulica", "Nadbrzeżyca", "Turzyca", "Selery", "Fiołek", "Cyklamen", "Elisma",
    "Przymiotno", "Kropidło", "Lindernia", "Rogownica", "Poryblin", "Skalnica", "Pszonacznik", "Okrzyn", "Kręczynka",
    "Wiechlinostrzewa", "Kukuczka", "Stulisz", "Dziurawiec", "Gęsiówka", "Głodek", "Sit", "Mniszek", "Podejźrzon",
    "Gałuszka", "Rozrzutka", "Wieczornik", "Mokrzyca", "Gnidosz", "Przytulia", "Przetacznik", "Szczodrzeniec",
    "Różanecznik", "Groszek", "Lobelia", "Miłek", "Szyplin", "Starodub", "Potrostek", "Ostrzew", "Ostrołódka",
    "Brzeżyca", "Perz", "Wawrzynek", "Kotewka", "Dyptam", "Czechrzyca"]

/-- the names that are free, best first -/
def branchNames (level : Int) (used : List String) : List String :=
  ((Colour.upTo level).map (·.name) ++ plants).filter fun n => !used.contains n

end TableauTutor
