import TableauTutor.Socket

/-!
The plugins that come with the program, as files in a folder for each socket.
-/

namespace TableauTutor

namespace Bundle

/-- sockets that read their plugins, with their versions -/
def sockets : List (String × String) :=
  [("Assistant", "0.0.1"), ("Formal", "0.4.0"), ("Lexicon", "0.0.1"), ("Output", "0.2.0")]

/-- the socket of the interface, whose plugin is never read -/
def interface : String × String := ("UserInterface", "0.0.1")

/-- the folder of a socket's plugins, as it is shown -/
def folder (socket : String) : String := "<app>/plugins/" ++ socket

/-- the functions that a socket needs of its plugins -/
def functions (socket : String) : List (String × Signature) :=
  match socket with
  | "Assistant" =>
    [("Article", ⟨[], ""⟩), ("Proof", ⟨["Sentence", "dict"], "None"⟩),
     ("UserMistake", ⟨["str", "str", "Union[dict[str, Any], None]"], "None"⟩),
     ("get_articles", ⟨[], "dict[str, Article]"⟩), ("hint_command", ⟨["Union[Proof, None]"], "Union[list[str], None]"⟩),
     ("hint_start", ⟨[], "Union[list[str], None]"⟩),
     ("mistake_check", ⟨["UserMistake"], "Union[list[str], None]"⟩),
     ("mistake_syntax", ⟨["UserMistake"], "Union[list[str], None]"⟩),
     ("mistake_userule", ⟨["UserMistake"], "Union[list[str], None]"⟩)]
  | "Formal" =>
    [("History", ⟨[""], "None"⟩), ("Proof", ⟨["Sentence", "dict"], "None"⟩), ("Sentence", ⟨["", "", ""], ""⟩),
     ("UsedRule", ⟨["int", "str", "str", "BranchCentric", "dict", "dict", "bool"], "None"⟩),
     ("UserMistake", ⟨["str", "str", "Union[dict[str, Any], None]"], "None"⟩),
     ("check_closure", ⟨["list[Sentence]", "History"], "Union[None, tuple[Close, str]]"⟩),
     ("check_syntax", ⟨["Sentence"], "Union[UserMistake, None]"⟩),
     ("checker", ⟨["UsedRule", "Sentence"], "Union[UserMistake, None]"⟩),
     ("generate_formula", ⟨["Session", "int", "int"], "Sentence"⟩),
     ("get_needed_context", ⟨["str"], "tuple[ContextDef]"⟩),
     ("get_operator_precedence", ⟨[], "dict[str, int]"⟩), ("get_rules_docs", ⟨[], "dict[str, str]"⟩),
     ("get_rules_symbolic", ⟨[], "dict[str, str]"⟩), ("get_tags", ⟨[], "tuple[str]"⟩),
     ("prepare_for_proving", ⟨["Sentence"], "Sentence"⟩), ("solver", ⟨["Proof"], "bool"⟩),
     ("use_rule", ⟨["str", "list[Sentence]", "History", "dict[str, Any]", "dict[str, Any]"],
       "tuple[SentenceTupleStructure, HistoryTupleStructure, dict[str, Any]]"⟩)]
  | "Lexicon" => [("get_lexicon", ⟨[], "Lexicon"⟩)]
  | "Output" =>
    [("convert_token", ⟨["str"], "str"⟩), ("get_readable", ⟨["Sentence"], "str"⟩),
     ("write_tree", ⟨["PrintedProofNode"], "list[str]"⟩)]
  | _ => [("run", ⟨[], "int"⟩)]

/-- a plugin made for a socket -/
def plugin (socket version : String) (role : Role) : Plugin :=
  { socket := some (.text socket), version := some (.text version), functions := Plugin.declared (functions socket),
    role }

def assistants : List (String × Plugin) :=
  [("__template__.py", plugin "Assistant" "0.0.1" .blank), ("basic.py", plugin "Assistant" "0.0.1" (.assistant .terse)),
   ("pan/__init__.py", plugin "Assistant" "0.0.1" (.assistant .guide)), ("pan/articles/Baza wiedzy.html", {})]

def calculi : List (String × Plugin) :=
  [("__template__.py", { plugin "Formal" "0.4.0" .blank with bareCopies := true }), ("__utils__.py", {}),
   ("analytic_freedom/__init__.py", plugin "Formal" "0.4.0" (.calculus .unsigned)),
   ("analytic_freedom/solver.py", {}), ("analytic_freedom/syntax_check.py", {}),
   ("analytic_signed/__init__.py", plugin "Formal" "0.4.0" (.calculus .signed)),
   ("analytic_signed/signed.py", {}), ("analytic_signed/solver.py", {})]

def lexicons : List (String × Plugin) :=
  [("__template__.py", plugin "Lexicon" "0.0.1" .blank), ("classic.py", plugin "Lexicon" "0.0.1" .lexicon)]

def styles : List (String × Plugin) :=
  [("TeX_forest.py", plugin "Output" "0.2.0" (.style .forest)),
   ("TeX_infer.py", plugin "Output" "0.2.0" (.style .inference)),
   ("__init__.py", {}), ("__template__.py", plugin "Output" "0.2.0" .blank), ("__utils__.py", {}),
   ("actual_tree.py", plugin "Output" "0.2.0" (.style .plain)), ("debug.py", plugin "Output" "0.2.0" (.style .typed))]

def interfaces : List (String × Plugin) :=
  [("CLI.py", plugin "UserInterface" "0.0.1" .blank), ("__template__.py", plugin "UserInterface" "0.0.1" .blank),
   ("__utils__.py", {}), ("flask_local/__init__.py", plugin "UserInterface" "0.0.1" .blank), ("flask_local/app.py", {}),
   ("flask_local/libs.py", {})]

/-- the style of a bundled plugin by its name; plain when there is none -/
def styleNamed (name : String) : Style :=
  match (styles.lookup (name ++ ".py")).map Plugin.role with
  | some (.style y) => y
  | _ => .plain

/-- the calculus of a bundled plugin by its name; the one without signs when there is none -/
def calculusNamed (name : String) : Calculus :=
  match (calculi.lookup (name ++ "/__init__.py")).map Plugin.role with
  | some (.calculus c) => c
  | _ => .unsigned

/-- all folders, each with more files in it -/
def shelf (more : List (String × Plugin)) : Shelf :=
  let add (socket : String) (files : List (String × Plugin)) :=
    (folder socket, files ++ more.filterMap fun (path, p) =>
      if Text.startsWith (socket ++ "/") path then some (Text.drop (socket.length + 1) path, p) else none)
  { folders := [add "Assistant" assistants, add "Formal" calculi, add "Lexicon" lexicons, add "Output" styles,
      add "UserInterface" interfaces] }

end Bundle

end TableauTutor
