import TableauTutor.Command.Basic

/-!
The commands of the program, in the order in which they are looked up and listed, each with its description.
-/

namespace TableauTutor

/-- what a command does -/
inductive Verb where
  | exit
  | rules
  | tree
  | jump
  | next
  | write
  | use
  | undo
  | leave
  | prove
  | gen
  | hint
  | solve
  | check
  | save
  | load
  | plugSwitch
  | plugGet
  | plugUpdate
  | plugListAll
  | plugList
  | plugGen
  | setupSave
  | setupDelete
  | setupOpen
  | setupUpdate
  | setupList
  | clear
  | methods
  | colours
  | help
deriving DecidableEq, Repr

namespace Command

/-- a description that goes on to list arguments -/
def listing (summary : String) (arguments : List String) : String :=
  summary ++ "\n    Arguments:\n" ++ String.join (arguments.map fun a => "        - " ++ a ++ "\n") ++ "    "

def coloursDocs : String :=
  "Changes the color palette of branches to a given set\n" ++
  "    Based on https://sashamaps.net/docs/resources/20-colors/\n    \n    Possible values:\n" ++
  "        - 0 - No colors, instead only animal names will be used for the branches\n" ++
  "        - 1 - Yellow, Blue, Black, White, Grey\n" ++
  "        - 2 - Everything in 1 + Orange, Lavender, Maroon, Navy\n" ++
  "        - 3 - Everything in 2 + Red, Green, Cyan, Magenta, Pink, Teal, Brown, Beige, Mint\n" ++
  "        - 4 - Everything in 3 + Purple, Lime, Olive, Apricot\n    "

def noWords : Arguments := .each []
def word : Arguments := .each [.text]
def twoWords : Arguments := .each [.text, .text]

def table : List (Form Verb) :=
  [⟨.exit, "exit", noWords, "Exits the app"⟩,
   ⟨.rules, "get rules", noWords, "Returns all of the rules that can be used in this proof system"⟩,
   ⟨.tree, "get tree", noWords, "Returns the proof in the form of a tree"⟩,
   ⟨.jump, "jump", .rest, listing "Changes the branch\n" ["Branch name [str/\">\"/\"right\"/\"left\"/\"<\"]"]⟩,
   ⟨.next, "next", noWords, "Finds an open branch and jumps onto it"⟩,
   ⟨.write, "write", word, listing ("\n    Writes a whole proof to a file with the provided name; " ++
      "if the file already exists program will append to it.\n") ["filename [str]"]⟩,
   ⟨.use, "use", .rest, listing "Uses a rule in the proof\n" ["Rule name [str]", "Depends on rule context"]⟩,
   ⟨.undo, "undo", .each [.number], "Undos last [arg] actions"⟩,
   ⟨.leave, "leave", noWords, "Deletes the proof"⟩,
   ⟨.prove, "prove", .rest, listing "Initiates a new proof\n" ["Sentence to prove [str]"]⟩,
   ⟨.gen, "gen", .each [.number, .number],
    listing "Generates a random formula\n" ["Formula length [int]", "Amount of variables in the formula [int]"]⟩,
   ⟨.hint, "hint", noWords, "Gives you a hint"⟩,
   ⟨.solve, "solve", noWords, "Solves the proof"⟩,
   ⟨.check, "check", noWords, "Checks the proof"⟩,
   ⟨.save, "save", word, listing "Saves current state of proof if needed\n    " ["filename [str]"]⟩,
   ⟨.load, "load", word, listing "Loads a saved proof \n    " ["filename [str]"]⟩,
   ⟨.plugSwitch, "plugin switch", twoWords,
    listing "Allows to plug in a plugin to a socket\n" ["Socket/Old plugin name [str]", "New plugin's name [str]"]⟩,
   ⟨.plugGet, "plugin get", twoWords,
    listing "Downloads a plugin from the <code>Larch-Team/larch-plugins</code> repository \n"
      ["Socket/current plugin name [str]", "Plugin name [str]"]⟩,
   ⟨.plugUpdate, "plugin update", twoWords,
    listing "Updates a plugin using the <code>Larch-Team/larch-plugins</code> repository \n"
      ["Socket/current plugin name [str]", "Plugin name [str]"]⟩,
   ⟨.plugListAll, "plugin list all", noWords, "Lists all the plugins that can be connected to all of the Sockets"⟩,
   ⟨.plugList, "plugin list", word,
    listing "Lists all the plugins that can be connected to a socket\n" ["Socket name [str]"]⟩,
   ⟨.plugGen, "plugin gen", twoWords,
    listing "Generates an empty plugin\n" ["Socket name [str]", "Plugin name [str]"]⟩,
   ⟨.setupSave, "setup save", word, listing "Saves a setup\n" ["Setup name [str]    "]⟩,
   ⟨.setupDelete, "setup delete", word, listing "Deletes a setup\n" ["Setup name [str]    "]⟩,
   ⟨.setupOpen, "setup open", word, listing "Initiates a given setup\n" ["Setup name [str]    "]⟩,
   ⟨.setupUpdate, "setup update", word, listing "Updates a given setup and initiates it\n" ["Setup name [str]    "]⟩,
   ⟨.setupList, "setup list", noWords, "Lists all local setups"⟩,
   ⟨.clear, "clear", noWords, "Clears the screen, useful when dealing with graphical bugs"⟩,
   ⟨.methods, "debug get methods", noWords, "Returns all methods of the session object"⟩,
   ⟨.colours, "access colors", .each [.number], coloursDocs⟩,
   ⟨.help, "?", noWords, "Lists all possible commands"⟩]

def names : List String := table.map (·.name)

end Command

/-- the words a command is typed with -/
def Verb.name (v : Verb) : String := ((Command.table.find? (·.verb == v)).map (·.name)).getD ""

end TableauTutor
